namespace FormCompiler

inductive Level
  | error
  | warn
  | info
  | debug
  | trace
  deriving DecidableEq

namespace Level

def rank : Level → Nat
  | .error => 0
  | .warn => 1
  | .info => 2
  | .debug => 3
  | .trace => 4

def name : Level → String
  | .error => "ERROR"
  | .warn => "WARN"
  | .info => "INFO"
  | .debug => "DEBUG"
  | .trace => "TRACE"

def hears (l m : Level) : Bool := m.rank ≤ l.rank

end Level

structure Note where
  level : Level
  text : String
  deriving DecidableEq

namespace Note

def error (text : String) : Note := ⟨.error, text⟩

def warn (text : String) : Note := ⟨.warn, text⟩

def info (text : String) : Note := ⟨.info, text⟩

def debug (text : String) : Note := ⟨.debug, text⟩

def trace (text : String) : Note := ⟨.trace, text⟩

end Note

end FormCompiler
