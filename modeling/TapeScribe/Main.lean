import TapeScribe.Command

namespace TapeScribe

def fileAt (path : String) : IO Place := do
  try
    return .file (← IO.FS.readBinFile path).toList
  catch _ =>
    return .unreadable

def placeOf (name : String) (toPath : String → String) : IO Place := do
  match ← IO.getEnv name with
  | some value => fileAt (toPath value)
  | none => return .unset

def environmentNow : IO Environment := do
  let named ← placeOf Environment.overrideName id
  let directory ← placeOf "XDG_CONFIG_HOME" (· ++ "/bfgen.toml")
  let home ← placeOf "HOME" (· ++ "/.config/bfgen.toml")
  return { named, directory, home }

end TapeScribe

def main (arguments : List String) : IO UInt32 := do
  let environment ← TapeScribe.environmentNow
  let report := TapeScribe.Command.run "bfgen" (arguments.map TapeScribe.Utf8.encode) environment
  (← IO.getStderr).putStr report.stderr
  (← IO.getStdout).putStr report.stdout
  return report.exitCode
