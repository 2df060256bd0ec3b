import FormCompiler.Files
import FormCompiler.Settings
import FormCompiler.Text.Terminal
import FormCompiler.Token.Queue

/-!
The command line: arguments, settings, and a session over a file or the standard input. Results go
to the standard output, all else to the standard error.
-/

namespace FormCompiler

structure Invocation where
  file : Option String := none
  verbose : Bool := false
  config : Option String := none
  emitCode : Bool := false
  level : Option OptLevel := none
  syncReader : Bool := false
  deriving DecidableEq

inductive Request
  | run (invocation : Invocation)
  | help
  | version
  | misuse
  deriving DecidableEq

namespace Invocation

def setFile? (i : Invocation) (path : String) : Option Invocation :=
  if i.file.isSome || path.isEmpty then none else some { i with file := some path }

def setConfig? (i : Invocation) (path : String) : Option Invocation :=
  if i.config.isSome || path.isEmpty then none else some { i with config := some path }

def setLevel? (i : Invocation) (text : String) : Option Invocation :=
  if i.level.isSome then none
  else (OptLevel.read? text).map fun level => { i with level := some level }

def setVerbose? (i : Invocation) : Option Invocation :=
  if i.verbose then none else some { i with verbose := true }

def setEmitCode? (i : Invocation) : Option Invocation :=
  if i.emitCode then none else some { i with emitCode := true }

def setSyncReader? (i : Invocation) : Option Invocation :=
  if i.syncReader then none else some { i with syncReader := true }

end Invocation

inductive ArgState
  | open (invocation : Invocation)
  | awaitingConfig (invocation : Invocation)
  | awaitingLevel (invocation : Invocation)
  | filesOnly (invocation : Invocation)
  | settled (request : Request)

namespace ArgState

def go : Option Invocation → ArgState
  | some i => .open i
  | none => .settled .misuse

def cluster (i : Invocation) : List Char → ArgState
  | [] => .open i
  | 'v' :: cs =>
    match i.setVerbose? with
    | some i => cluster i cs
    | none => .settled .misuse
  | 'h' :: _ => .settled .help
  | 'V' :: _ => .settled .version
  | ['O'] => .awaitingLevel i
  | 'O' :: '=' :: text => go (i.setLevel? (String.ofList text))
  | 'O' :: text => go (i.setLevel? (String.ofList text))
  | _ :: _ => .settled .misuse

def long (i : Invocation) (arg : String) : ArgState :=
  match arg with
  | "--" => .filesOnly i
  | "--help" => .settled .help
  | "--version" => .settled .version
  | "--verbose" => go i.setVerbose?
  | "--emit-ir" => go i.setEmitCode?
  | "--sync-lexer" => go i.setSyncReader?
  | "--config" => .awaitingConfig i
  | arg =>
    match arg.splitOn "=" with
    | "--config" :: path => go (i.setConfig? ("=".intercalate path))
    | _ => .settled .misuse

def isValue (arg : String) : Bool := arg == "-" || !arg.startsWith "-"

def next : ArgState → String → ArgState
  | .settled r, _ => .settled r
  | .filesOnly i, arg =>
    match i.setFile? arg with
    | some i => .filesOnly i
    | none => .settled .misuse
  | .awaitingConfig i, arg => if isValue arg then go (i.setConfig? arg) else .settled .misuse
  | .awaitingLevel i, arg => if isValue arg then go (i.setLevel? arg) else .settled .misuse
  | .open i, arg =>
    if isValue arg then go (i.setFile? arg)
    else if arg.startsWith "--" then long i arg
    else cluster i (arg.toList.drop 1)

def request : ArgState → Request
  | .open i | .filesOnly i => .run i
  | .awaitingConfig _ | .awaitingLevel _ => .misuse
  | .settled r => r

end ArgState

def Request.ofArgs (args : List String) : Request := (args.foldl ArgState.next (.open {})).request

namespace Invocation

def adjust (i : Invocation) (s : Settings) : Settings :=
  { s with
    options := { s.options with
      printCode := i.emitCode || s.options.printCode
      level := i.level.getD s.options.level }
    reader := { s.reader with threaded := !i.syncReader && s.reader.threaded }
    level := if i.verbose then .debug else s.level }

end Invocation

structure Report where
  code : Nat
  stdout : String := ""
  stderr : String := ""

namespace Report

def version : String := "0.0.3"

def helpText : String :=
  "YAPL\n\nUsage: yapl [OPTIONS] [FILE]\n\n" ++
  "Arguments:\n  [FILE]  Source file to run; reads standard input when omitted\n\n" ++
  "Options:\n" ++
  "  -v, --verbose        Enable verbose output\n" ++
  "      --config <PATH>  Configuration file to use instead of the user-level one\n" ++
  "      --emit-ir        Log the IR of every committed unit\n" ++
  "  -O <LEVEL>           Optimization level (0, 1, 2)\n" ++
  "      --sync-lexer     Tokenize on the main thread instead of a worker\n" ++
  "  -h, --help           Print help\n" ++
  "  -V, --version        Print version\n"

def logLine (n : Note) : String :=
  let name := n.level.name
  "".pushn ' ' (5 - name.length) ++ name ++ " " ++ Text.tame n.text ++ "\n"

def hang (indent text : String) : String := ("\n" ++ indent).intercalate (text.splitOn "\n")

def failure (message : String) (causes : List String) : String :=
  let lines := match causes with
    | [cause] => "    " ++ hang "    " cause ++ "\n"
    | causes =>
      String.join (causes.zipIdx.map fun ((cause, i) : String × Nat) =>
        s!"    {i}: " ++ hang "       " cause ++ "\n")
  s!"Error: {message}\n\nCaused by:\n{lines}"

def ofEvents (level : Level) (events : List Event) : Report :=
  events.foldl (fun r e => match e with
    | .note n => if level.hears n.level then { r with stderr := r.stderr ++ logLine n } else r
    | .printed text => { r with stdout := r.stdout ++ text }
    | .written text => { r with stderr := r.stderr ++ text }) { code := 0 }

end Report

namespace CommandLine

def userSettings (path? : Option String) (files : FileAccess) : Settings × String :=
  let ignored (why : String) : Settings × String :=
    ({}, s!"warning: ignoring user config: {why}\n")
  match path? with
  | none => ({}, "")
  | some path =>
    match files path with
    | .error _ => ({}, "")
    | .ok .directory => ignored s!"IO error: {directoryMessage}"
    | .ok (.file bytes) =>
      match String.fromUTF8? ⟨bytes.toArray⟩ with
      | none => ignored "IO error: stream did not contain valid UTF-8"
      | some text =>
        match Settings.ofText? text with
        | some settings => (settings, "")
        | none => ignored "Config parse error"

def givenSettings (path : String) (files : FileAccess) : Except String Settings :=
  match files path with
  | .error e => .error s!"IO error: {e.message}"
  | .ok .directory => .error s!"IO error: {directoryMessage}"
  | .ok (.file bytes) =>
    match String.fromUTF8? ⟨bytes.toArray⟩ with
    | none => .error "IO error: stream did not contain valid UTF-8"
    | some text =>
      match Settings.ofText? text with
      | some settings => .ok settings
      | none => .error "Config parse error"

def stream (s : Settings) (source : Source) : TokenStream :=
  if s.reader.threaded then
    { TokenStream.queued source with closing := source.closing, audible := true }
  else .ofSource source

def session (s : Settings) (source : Source) : Report :=
  let done := (Session.start s.options).run (stream s source)
  let spawned :=
    if s.reader.threaded then [Event.note (TokenQueue.started s.reader.capacity)] else []
  let closing := Event.note (.debug s!"session: {done.session.stats.text}")
  .ofEvents s.level (spawned ++ done.events ++ [closing])

def execute (i : Invocation) (s : Settings) (files : FileAccess) (stdin : List UInt8) : Report :=
  let banner := s!"YAPL v{Report.version}\n" ++ if i.verbose then "Host: linux\n" else ""
  let report := match i.file with
    | none => session s (.ofBytes stdin)
    | some path =>
      match files path with
      | .ok found => session s found.source
      | .error e =>
        { code := 1
          stderr := Report.failure s!"Failed to run: {path}"
            [s!"Failed to read file: {path}", e.message] }
  { report with stderr := banner ++ report.stderr }

def run (args : List String) (env : String → Option String) (files : FileAccess)
    (stdin : List UInt8) : Report :=
  match Request.ofArgs args with
  | .help => { code := 0, stdout := Report.helpText }
  | .version => { code := 0, stdout := s!"yapl {Report.version}\n" }
  | .misuse => { code := 2 }
  | .run i =>
    match i.config with
    | none =>
      let (settings, warning) := userSettings (Settings.path? env) files
      let report := execute i (i.adjust settings) files stdin
      { report with stderr := warning ++ report.stderr }
    | some path =>
      match givenSettings path files with
      | .ok settings => execute i (i.adjust settings) files stdin
      | .error cause =>
        { code := 1, stderr := Report.failure s!"Failed to load config: {path}" [cause] }

end CommandLine

end FormCompiler
