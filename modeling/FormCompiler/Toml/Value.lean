import FormCompiler.Decimal.Text

namespace FormCompiler.Toml

inductive Value
  | string (text : String)
  | integer (number : Int)
  | float (text : String)
  | boolean (truth : Bool)
  | moment (text : String)
  | array (items : List Value)
  | table (entries : List (String × Value))

inductive Origin
  | implied
  | header
  | dotted
  deriving DecidableEq

inductive Item
  | value (value : Value)
  | table (origin : Origin) (entries : List (String × Item))
  | tables (last : List (String × Item)) (before : List (List (String × Item)))

abbrev Entries := List (String × Item)

mutual

def Item.toValue : Item → Value
  | .value v => v
  | .table _ entries => .table (Item.toValues entries)
  | .tables last before => .array ((Item.toTables before).reverse ++ [.table (Item.toValues last)])

def Item.toValues : List (String × Item) → List (String × Value)
  | [] => []
  | (key, item) :: rest => (key, item.toValue) :: Item.toValues rest

def Item.toTables : List (List (String × Item)) → List Value
  | [] => []
  | entries :: rest => .table (Item.toValues entries) :: Item.toTables rest

end

namespace Entries

def get? (es : Entries) (key : String) : Option Item := es.lookup key

def put (es : Entries) (key : String) (item : Item) : Entries :=
  match es with
  | [] => [(key, item)]
  | (k, i) :: rest => if k = key then (key, item) :: rest else (k, i) :: put rest key item

def at? (change : Entries → Option Entries) (path : List String) (es : Entries) :
    Option Entries :=
  match path with
  | [] => change es
  | key :: path =>
    match es.get? key with
    | none => do return es.put key (.table .implied (← at? change path []))
    | some (.table origin inner) => do return es.put key (.table origin (← at? change path inner))
    | some (.tables last before) => do return es.put key (.tables (← at? change path last) before)
    | some (.value _) => none

def add? (es : Entries) (key : String) (item : Item) : Option Entries :=
  match es.get? key with
  | none => some (es.put key item)
  | some _ => none

def assign? (path : List String) (v : Value) (es : Entries) : Option Entries :=
  match path with
  | [] => none
  | [key] => es.add? key (.value v)
  | key :: path =>
    match es.get? key with
    | none => do return es.put key (.table .dotted (← assign? path v []))
    | some (.table .header _) => none
    | some (.table origin inner) =>
      if origin = .implied ∧ path.length = 1 then none
      else do return es.put key (.table origin (← assign? path v inner))
    | some (.tables last before) =>
      if path.length = 1 then none
      else do return es.put key (.tables (← assign? path v last) before)
    | some (.value _) => none

def openTable? (key : String) (es : Entries) : Option Entries :=
  match es.get? key with
  | none => some (es.put key (.table .header []))
  | some (.table .implied inner) => some (es.put key (.table .header inner))
  | some _ => none

def openNext? (key : String) (es : Entries) : Option Entries :=
  match es.get? key with
  | none => some (es.put key (.tables [] []))
  | some (.tables last before) => some (es.put key (.tables [] (last :: before)))
  | some _ => none

end Entries

end FormCompiler.Toml
