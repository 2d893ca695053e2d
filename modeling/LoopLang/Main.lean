import LoopLang.CommandLine.Words

set_option autoImplicit false

/-! # The command

Reads the command line and the file that it names, and leaves the rest to `CommandLine`. -/

namespace LoopLang.CommandLine

/-- The contents of a file, or the reason why it cannot be read. -/
def readContents (file : String) : IO (Except String ByteArray) := do
  try
    return .ok (← IO.FS.readBinFile file)
  catch
    | .noFileOrDirectory .. => return .error "No such file or directory (os error 2)"
    | .permissionDenied .. => return .error "Permission denied (os error 13)"
    | .inappropriateType .. => return .error "Is a directory (os error 21)"
    | e => return .error (toString e)

/-- Enough fuel for every run that a machine can finish. -/
def ampleFuel : Nat := 0x4000000000000000

/-- Runs the command on a command line that this reader reads. -/
def run (read : Reader) (words : List String) : IO UInt32 := do
  let contents ← match read words with
    | .ok args => readContents args.file
    | .error _ => pure (.error "")
  match respond read ampleFuel (fun _ => contents) words with
  | none => return 1
  | some response =>
    (← IO.getStdout).putStr response.stdout
    (← IO.getStderr).putStr response.stderr
    return response.exit.toUInt32

end LoopLang.CommandLine

open LoopLang.CommandLine

/-- Runs the command. -/
def main (words : List String) : IO UInt32 :=
  run readWords words
