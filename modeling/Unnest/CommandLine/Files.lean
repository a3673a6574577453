/-! The calls on files that a program makes. The operating system answers them, so they are
parameters here; what it promises about them is told where runs are reasoned about. -/

namespace Unnest.CommandLine

inductive FileFault where
  | missing
  | notFolder
  | isFolder
  | notText
  | other (text : String)
deriving DecidableEq

def FileFault.message : FileFault → String
  | .missing => "No such file or directory (os error 2)"
  | .notFolder => "Not a directory (os error 20)"
  | .isFolder => "Is a directory (os error 21)"
  | .notText => "stream did not contain valid UTF-8"
  | .other text => text

def textOf (bytes : ByteArray) : Except FileFault String :=
  match String.fromUTF8? bytes with
  | some text => .ok text
  | none => .error .notText

/-- Calls that act in `m` and open files of the type `φ`. -/
structure FileSystem (m : Type → Type) (φ : Type) where
  readAll : String → m (Except FileFault ByteArray)
  /-- Opens a file to write it anew; it is made if it is not there. -/
  create : String → m (Except FileFault φ)
  /-- Writes behind what has been written. When it fails, a part may have been written. -/
  writeAll : φ → ByteArray → m (Except FileFault Unit)

namespace FileSystem

variable {m : Type → Type} [Monad m] {φ : Type}

def readText (fs : FileSystem m φ) (name : String) : m (Except FileFault String) := do
  return (← fs.readAll name).bind textOf

/-- Puts a text in the place of what a file holds. -/
def writeText (fs : FileSystem m φ) (name text : String) : m (Except FileFault Unit) := do
  match ← fs.create name with
  | .error fault => return .error fault
  | .ok file => fs.writeAll file text.toUTF8

end FileSystem

end Unnest.CommandLine
