import Unnest.CommandLine.Serve

/-! The program itself: it makes the calls on files and prints, and leaves every decision to
`CommandLine`. -/

namespace Unnest.CommandLine

def FileFault.ofError : IO.Error → FileFault
  | .noFileOrDirectory _ _ _ => .missing
  | .inappropriateType _ code _ => if code = 21 then .isFolder else .notFolder
  | e => .other (toString e)

def answerOf {α : Type} (call : IO α) : IO (Except FileFault α) := do
  try
    return .ok (← call)
  catch e => return .error (.ofError e)

def systemFiles : FileSystem IO IO.FS.Handle where
  readAll name := answerOf (IO.FS.readBinFile name)
  create name := answerOf (IO.FS.Handle.mk name .write)
  writeAll file bytes := answerOf do
    file.write bytes
    file.flush

end Unnest.CommandLine

open Unnest Unnest.CommandLine

def main (args : List String) : IO UInt32 := do
  let e ← serveWith systemFiles (readArguments {}) Css.readSheet args
  IO.eprint e.complaint
  IO.print e.printed
  return e.code.toUInt32
