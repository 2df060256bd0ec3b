import FormCompiler.Code.Printer
import FormCompiler.Engine
import FormCompiler.Generator
import FormCompiler.Parser

/-!
A session: forms are read one after another, each is turned into code and committed, and a bare
expression is run at once. A form that fails is reported and forgotten.
-/

namespace FormCompiler

structure Options where
  level : OptLevel := .o1
  printCode : Bool := false
  unsignedCompare : Bool := false
  allowRedefinition : Bool := false
  depth : Nat := 512
  deriving DecidableEq

inductive Event
  | note (note : Note)
  | printed (text : String)
  | written (text : String)

structure Stats where
  forms : Nat := 0
  evaluated : Nat := 0
  failed : Nat := 0
  deriving DecidableEq

def Stats.text (s : Stats) : String :=
  s!"SessionStats \x7b forms: {s.forms}, evaluated: {s.evaluated}, failed: {s.failed} \x7d"

structure Session where
  generator : Generator
  engine : Engine
  printCode : Bool
  stats : Stats := {}

namespace Session

def start (o : Options) : Session :=
  let engine := Engine.ofDepth o.depth
  { generator := .start engine.layout ⟨o.level, o.unsignedCompare, o.allowRedefinition⟩
    engine, printCode := o.printCode }

structure Reply (α : Type) where
  result : α
  session : Session
  events : List Event

def notes (ns : List Note) : List Event := ns.map .note

def report (message : String) : Event := .note (.error message)

def countForm (s : Session) : Session :=
  { s with stats := { s.stats with forms := s.stats.forms + 1 } }

def countFailed (s : Session) : Session :=
  { s with stats := { s.stats with failed := s.stats.failed + 1 } }

def countEvaluated (s : Session) : Session :=
  { s with stats := { s.stats with evaluated := s.stats.evaluated + 1 } }

def commit (s : Session) : Reply (Except Fault Unit) :=
  let taken := s.generator.takeUnit
  let shown := if s.printCode then [Event.note (.info ("\n" ++ taken.result.text))] else []
  let (result, engine, said) := s.engine.commit taken.result
  ⟨result.map fun _ => (), { s with generator := taken.generator, engine },
    notes taken.notes ++ shown ++ notes said⟩

def declare (s : Session) (d : Declaration) : Reply Bool :=
  let lowered := s.generator.declaration d
  let s := { s with generator := lowered.generator }
  match lowered.result with
  | .error e => ⟨false, s.countFailed, notes lowered.notes ++ [report e.message]⟩
  | .ok none => ⟨true, s, notes lowered.notes⟩
  | .ok (some name) =>
    let committed := s.commit
    let events := notes lowered.notes ++ [.note (.debug s!"lowered `{name}`")] ++ committed.events
    match committed.result with
    | .ok () => ⟨true, committed.session, events⟩
    | .error fault => ⟨false, committed.session.countFailed, events ++ [report fault.message]⟩

def invoke (s : Session) (name : String) : Engine.Called :=
  match s.engine.lookup? name with
  | some signature => s.engine.callAs signature []
  | none => ⟨.error (.unresolved name), []⟩

def evaluate (s : Session) (a : Anonymous) : Reply Unit :=
  let lowered := s.generator.anonymous a
  let s := { s with generator := lowered.generator }
  match lowered.result with
  | .error e => ⟨(), s.countFailed, notes lowered.notes ++ [report e.message]⟩
  | .ok name =>
    let committed := s.commit
    let events := notes lowered.notes ++ committed.events
    match committed.result with
    | .error fault => ⟨(), committed.session.countFailed, events ++ [report fault.message]⟩
    | .ok () =>
      let called := committed.session.invoke name
      let written := called.calls.filterMap fun c =>
        if c.output = "" then none else some (Event.written c.output)
      match called.result with
      | .ok value =>
        ⟨(), committed.session.countEvaluated,
          events ++ written ++ [.printed s!"Evaluated to {value.text}\n"]⟩
      | .error fault =>
        ⟨(), committed.session.countFailed, events ++ written ++ [report fault.message]⟩

structure Turn where
  session : Session
  parser : Parser
  events : List Event
  ended : Bool := false

def act (s : Session) (p : Parser) : Form → Turn
  | .declaration d =>
    let r := s.declare d
    ⟨r.session, if r.result then p else p.reject, r.events, false⟩
  | .anonymous a =>
    let r := s.evaluate a
    ⟨r.session, p.countAnonymous, r.events, false⟩
  | .expression e =>
    let r := s.evaluate (.wrap e p.counter)
    ⟨r.session, p.countAnonymous, r.events, false⟩

def turn (s : Session) (p : Parser) : Turn :=
  let read := p.next
  let (errors, q) := read.parser.takeErrors
  let events := notes read.notes ++ errors.map fun e => report e.message
  match read.result with
  | none => ⟨if errors.isEmpty then s else s.countForm.countFailed, q, events, false⟩
  | some form =>
    if form.isEnd then ⟨s, q, events, true⟩
    else if !errors.isEmpty then ⟨s.countForm.countFailed, q.reject, events, false⟩
    else
      let t := s.countForm.act q form
      { t with events := events ++ t.events }

/-- Takes turns up to the end of the input. Every turn takes at least one token. -/
def turns (s : Session) (p : Parser) (seen : Array Event) : Session × Parser × Array Event :=
  let t := s.turn p
  let seen := seen ++ t.events
  if _h : t.ended = false ∧ t.parser.remaining < p.remaining then turns t.session t.parser seen
  else (t.session, t.parser, seen)
termination_by p.remaining
decreasing_by exact _h.2

structure Finished where
  session : Session
  parser : Parser
  events : List Event

def run (s : Session) (stream : TokenStream) : Finished :=
  let (session, parser, seen) := s.turns (.ofStream stream) #[]
  ⟨session, parser,
    .note (.debug "driver started (interactive: false)") ::
      (seen.toList ++ [.note (.debug s!"driver finished: {session.stats.text}")])⟩

end Session

def runText (text : String) (o : Options) : Session.Finished :=
  let done := (Session.start o).run (.ofSource (.ofText text))
  { done with
    events := .note (.debug s!"running {text.utf8ByteSize} bytes of source") :: done.events }

end FormCompiler
