import FormCompiler.Table
import FormCompiler.Ty

namespace FormCompiler

def scopedName (scope name : String) : String :=
  if scope = "" then name else scope ++ "::" ++ name

/-- `journal` holds what each declaration since the checkpoint replaced, the latest first. -/
structure SymbolTable where
  entries : Table Ty := ∅
  journal : List (String × Option Ty) := []

namespace SymbolTable

def declare (t : SymbolTable) (scope name : String) (type : Ty) : SymbolTable :=
  let key := scopedName scope name
  ⟨t.entries.insert key type, (key, t.entries.get? key) :: t.journal⟩

def checkpoint (t : SymbolTable) : SymbolTable := { t with journal := [] }

def rollback (t : SymbolTable) : SymbolTable :=
  ⟨t.journal.foldl (fun entries e => entries.set e.1 e.2) t.entries, []⟩

def lookup? (t : SymbolTable) (scope name : String) : Option Ty :=
  if scope = "" then t.entries.get? name
  else (t.entries.get? (scopedName scope name)).or (t.entries.get? name)

def size (t : SymbolTable) : Nat := t.entries.size

def isEmpty (t : SymbolTable) : Bool := t.entries.isEmpty

end SymbolTable

end FormCompiler
