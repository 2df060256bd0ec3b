import FormCompiler.Decimal.Text
import FormCompiler.Ty

namespace FormCompiler

inductive NativeType
  | i1
  | i32
  | f64
  | void
  deriving DecidableEq

inductive Const
  | i1 (value : Bool)
  | i32 (value : Int32)
  | f64 (value : Float)
  deriving DecidableEq

namespace NativeType

/-- How values of a source type are represented. Characters are held as doubles. -/
def ofTy : Ty → NativeType
  | .int => .i32
  | .double | .char => .f64
  | .void => .void

def isInteger : NativeType → Bool
  | .i1 | .i32 => true
  | .f64 | .void => false

def isFloat : NativeType → Bool
  | .f64 => true
  | .i1 | .i32 | .void => false

def text : NativeType → String
  | .i1 => "i1"
  | .i32 => "i32"
  | .f64 => "double"
  | .void => "void"

def zero? : NativeType → Option Const
  | .i1 => some (.i1 false)
  | .i32 => some (.i32 0)
  | .f64 => some (.f64 0.0)
  | .void => none

end NativeType

namespace Const

def type : Const → NativeType
  | .i1 _ => .i1
  | .i32 _ => .i32
  | .f64 _ => .f64

/-- Whether two constants compare equal. A NaN differs from itself, and the two zeros agree. -/
def agrees : Const → Const → Bool
  | .i1 a, .i1 b => a == b
  | .i32 a, .i32 b => a == b
  | .f64 a, .f64 b => a == b
  | _, _ => false

def text : Const → String
  | .i1 value => if value then "true" else "false"
  | .i32 value => toString value.toInt
  | .f64 value => Decimal.text value

end Const

inductive Value
  | void
  | of (const : Const)
  deriving DecidableEq

namespace Value

def ofConst? : Option Const → Value
  | some c => .of c
  | none => .void

def const? : Value → Option Const
  | .void => none
  | .of c => some c

def type : Value → NativeType
  | .void => .void
  | .of c => c.type

def text : Value → String
  | .void => "void"
  | .of (.i1 value) => if value then "1" else "0"
  | .of c => c.text

end Value

end FormCompiler
