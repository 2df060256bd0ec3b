import FormCompiler.Session
import FormCompiler.Toml.Reader

namespace FormCompiler

structure PromptSettings where
  banner : String := "(yapl)>>> "
  historyFile : Option String := none
  historySize : Nat := 1000
  deriving DecidableEq

structure ReaderSettings where
  threaded : Bool := true
  capacity : Nat := 256
  deriving DecidableEq

structure Settings where
  prompt : PromptSettings := {}
  reader : ReaderSettings := {}
  options : Options := {}
  level : Level := .info
  deriving DecidableEq

namespace Settings

abbrev Section := List (String × Toml.Value)

def section? (es : Toml.Entries) (name : String) (keys : List String) : Option Section :=
  match (es.get? name).map Toml.Item.toValue with
  | none | some (.moment _) => some []
  | some (.table entries) => some entries
  | some (.array items) => some (keys.zip items)
  | some _ => none

def valueOr {α : Type} (s : Section) (key : String) (default : α) (read? : Toml.Value → Option α) :
    Option α :=
  match s.lookup key with
  | none => some default
  | some v => read? v

def text? : Toml.Value → Option String
  | .string text => some text
  | _ => none

def truth? : Toml.Value → Option Bool
  | .boolean truth => some truth
  | _ => none

def count? : Toml.Value → Option Nat
  | .integer n => if 0 ≤ n then some n.toNat else none
  | _ => none

def choice? : Toml.Value → Option String
  | .string name | .table [(name, .table [])] | .table [(name, .array [])] => some name
  | _ => none

def optLevel? (v : Toml.Value) : Option OptLevel := do
  match ← choice? v with
  | "O0" => some .o0
  | "O1" => some .o1
  | "O2" => some .o2
  | _ => none

def logLevel? (v : Toml.Value) : Option Level := do
  match ← choice? v with
  | "debug" => some .debug
  | "info" => some .info
  | "warn" => some .warn
  | "error" => some .error
  | _ => none

def promptKeys : List String := ["banner", "history_file", "history_size"]

def readerKeys : List String := ["threaded", "queue_capacity"]

def optionKeys : List String :=
  ["opt_level", "print_ir", "unsigned_compare", "allow_redefinition", "max_call_depth"]

def prompt? (s : Section) : Option PromptSettings := do
  let default : PromptSettings := {}
  return {
    banner := ← valueOr s "banner" default.banner text?
    historyFile := ← valueOr s "history_file" default.historyFile fun v => (text? v).map some
    historySize := ← valueOr s "history_size" default.historySize count? }

def reader? (s : Section) : Option ReaderSettings := do
  let default : ReaderSettings := {}
  return {
    threaded := ← valueOr s "threaded" default.threaded truth?
    capacity := ← valueOr s "queue_capacity" default.capacity count? }

def options? (s : Section) : Option Options := do
  let default : Options := {}
  return {
    level := ← valueOr s "opt_level" default.level optLevel?
    printCode := ← valueOr s "print_ir" default.printCode truth?
    unsignedCompare := ← valueOr s "unsigned_compare" default.unsignedCompare truth?
    allowRedefinition := ← valueOr s "allow_redefinition" default.allowRedefinition truth?
    depth := ← valueOr s "max_call_depth" default.depth count? }

def ofText? (text : String) : Option Settings := do
  let es ← Toml.read? text
  return {
    prompt := ← prompt? (← section? es "repl" promptKeys)
    reader := ← reader? (← section? es "lexer" readerKeys)
    options := ← options? (← section? es "jit" optionKeys)
    level := ← valueOr (← section? es "log" ["level"]) "level" .info logLevel? }

def join (dir name : String) : String :=
  if name.startsWith "/" || dir.isEmpty then name
  else if dir.endsWith "/" then dir ++ name
  else dir ++ "/" ++ name

def directory? (env : String → Option String) : Option String :=
  match env "XDG_CONFIG_HOME", env "HOME", env "APPDATA" with
  | some config, _, _ => some (join config "yapl")
  | none, some home, _ => some (join (join home ".config") "yapl")
  | none, none, some data => some (join data "yapl")
  | none, none, none => none

def path? (env : String → Option String) : Option String :=
  (directory? env).map (join · "config.toml")

end Settings

end FormCompiler
