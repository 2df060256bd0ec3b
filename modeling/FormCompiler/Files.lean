import FormCompiler.Source

namespace FormCompiler

inductive Found
  | file (bytes : List UInt8)
  | directory

inductive FileError
  | missing
  | notDirectory
  | nameTooLong
  deriving DecidableEq

def FileError.message : FileError → String
  | .missing => "No such file or directory (os error 2)"
  | .notDirectory => "Not a directory (os error 20)"
  | .nameTooLong => "File name too long (os error 36)"

def directoryMessage : String := "Is a directory (os error 21)"

abbrev FileAccess := String → Except FileError Found

def Found.source : Found → Source
  | .file bytes => .ofBytes bytes
  | .directory =>
    ⟨[], [.error s!"read failed, treating as end of input: {directoryMessage}"]⟩

namespace FileTree

abbrev Files := List (List String × Found)

def components (path : String) : List String := (path.splitOn "/").filter fun c => c ≠ "" ∧ c ≠ "."

def ofTexts (texts : List (String × String)) : Files :=
  texts.map fun e => (components e.1, .file e.2.toUTF8.toList)

def system : Files := [(["dev", "null"], .file []), (["tmp"], .directory)]

def isInner (files : Files) (path : List String) : Bool :=
  path.isEmpty || files.any fun e => path.isPrefixOf e.1 && path.length < e.1.length

def nameLimit : Nat := 255

def pathLimit : Nat := 4095

def entry (files : Files) (path : List String) : Except FileError Found :=
  if (path.getLastD "").utf8ByteSize > nameLimit then .error .nameTooLong
  else if isInner files path then .ok .directory
  else
    match files.lookup path with
    | none => .error .missing
    | some found => .ok found

def follow (above files : Files) (dir : List String) : List String → Except FileError Found
  | [] => .ok .directory
  | "" :: rest | "." :: rest => follow above files dir rest
  | ".." :: rest =>
    if dir.isEmpty then follow above above [] rest else follow above files dir.dropLast rest
  | name :: rest => do
    match ← entry files (dir ++ [name]) with
    | .directory => follow above files (dir ++ [name]) rest
    | .file bytes => if rest.isEmpty then .ok (.file bytes) else .error .notDirectory

def access (files : Files) : FileAccess := fun path =>
  if path.isEmpty then .error .missing
  else if path.utf8ByteSize > pathLimit then .error .nameTooLong
  else if path.startsWith "/" then follow system system [] (path.splitOn "/")
  else follow [] files [] (path.splitOn "/")

end FileTree

end FormCompiler
