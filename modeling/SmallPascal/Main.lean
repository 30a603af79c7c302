import SmallPascal.CommandLine

/-!
The interpreter as a program: it reads the source that the arguments name, and shows the reaction.
-/

namespace SmallPascal

partial def readAll (stream : IO.FS.Stream) (before : ByteArray) : IO ByteArray := do
  let bytes ← stream.read 65536
  if bytes.isEmpty then return before else readAll stream (before ++ bytes)

def readSource : Source → IO Contents
  | .standardInput => do
    return .bytes (← readAll (← IO.getStdin) .empty)
  | .file path => do
    try
      return .bytes (← IO.FS.readBinFile path)
    catch
    | .inappropriateType _ 21 details => return .unreadable (details ++ " (os error 21)")
    | .permissionDenied _ code details =>
      return .unreadable (details ++ " (os error " ++ digits code.toNat ++ ")")
    | _ => return .missing

end SmallPascal

/-- Runs the command that the arguments give. -/
def main (arguments : List String) : IO UInt32 := do
  let command := SmallPascal.Command.ofArguments arguments
  let contents ← match command with
    | .run source _ => SmallPascal.readSource source
    | _ => pure .missing
  let reaction := command.react (fun _ => contents) SmallPascal.stepBound
  IO.print reaction.stdout
  IO.eprint reaction.stderr
  return reaction.exit
