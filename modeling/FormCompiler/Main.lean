import FormCompiler.CommandLine

namespace FormCompiler.Shell

partial def readAll (stream : IO.FS.Stream) (before : ByteArray) : IO ByteArray := do
  let chunk ← stream.read 65536
  if chunk.isEmpty then return before else readAll stream (before ++ chunk)

def look (path : String) : IO (Except FileError Found) := do
  match ← (IO.FS.Handle.mk path .read).toBaseIO with
  | .error (.noFileOrDirectory ..) => return .error .missing
  | .error (.invalidArgument ..) => return .error .nameTooLong
  | .error _ => return .error .notDirectory
  | .ok handle =>
    match ← handle.readBinToEnd.toBaseIO with
    | .error _ => return .ok .directory
    | .ok bytes => return .ok (.file bytes.toList)

def start (args : List String) : IO UInt32 := do
  let names := ["XDG_CONFIG_HOME", "HOME", "APPDATA"]
  let found ← names.mapM fun name => return (name, ← IO.getEnv name)
  let env (name : String) : Option String := (found.lookup name).join
  let asked := match Request.ofArgs args with
    | .run i => some i
    | _ => none
  let paths := (Settings.path? env).toList ++
    (asked.map fun i => i.config.toList ++ i.file.toList).getD []
  let seen ← paths.mapM fun path => return (path, ← look path)
  let files : FileAccess := fun path => (seen.lookup path).getD (.error .missing)
  let needed := (asked.map fun i => i.file.isNone).getD false
  let stdin ← if needed then readAll (← IO.getStdin) .empty else pure .empty
  let report := CommandLine.run args env files stdin.toList
  (← IO.getStderr).putStr report.stderr
  (← IO.getStdout).putStr report.stdout
  return report.code.toUInt32

end FormCompiler.Shell

def main (args : List String) : IO UInt32 := FormCompiler.Shell.start args
