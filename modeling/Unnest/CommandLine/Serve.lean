import Unnest.Flatten
import Unnest.CommandLine.Request
import Unnest.CommandLine.Folder

/-! The program, with the calls on files, the reader of arguments and the reader of style sheets as
parameters. Nothing is printed or written before the flat text is there. -/

namespace Unnest.CommandLine

inductive Failure where
  | reading (fault : FileFault)
  | flattening (input : String) (e : Error)
  | writing (output : String) (fault : FileFault)

def Failure.message : Failure → String
  | .reading fault => "Error reading CSS file: " ++ fault.message ++ "\n"
  | .flattening input e => "Error flattening " ++ input ++ ": " ++ e.message ++ "\n"
  | .writing output fault => "Error writing " ++ output ++ ": " ++ fault.message ++ "\n"

/-- What is asked for: a file to read, the options, and a file to write unless the result is
printed. -/
structure Request where
  input : String
  output : Option String
  options : Options

def Flags.request (f : Flags) : Request :=
  { input := f.files.head?.getD "", output := f.files[1]?, options := f.options }

def Request.result (r : Request) (read : Css.Reader) (input : Except FileFault String) :
    Except Failure String :=
  match input with
  | .error fault => .error (.reading fault)
  | .ok text =>
    match flattenRead read r.options r.input text with
    | .error e => .error (.flattening r.input e)
    | .ok flat => .ok flat

def usage : String :=
  "Usage: unnest [OPTIONS] <INPUT> [OUTPUT]\n\nOptions:\n      --preserve-empty\n      --bubble <NAME>\n      --unwrap <NAME>\n      --root-rule-name <NAME>\n      --dispatch-stale\n  -h, --help\n"

/-- How a run ends: its exit code, what it prints and what it complains about. -/
structure Ending where
  code : Nat
  printed : String
  complaint : String

def Failure.ending (f : Failure) : Ending := ⟨1, "", f.message⟩

variable {m : Type → Type} [Monad m] {φ : Type}

def serveRequest (fs : FileSystem m φ) (read : Css.Reader) (r : Request) : m Ending := do
  match r.result read (← fs.readText r.input), r.output with
  | .error f, _ => return f.ending
  | .ok text, none => return ⟨0, text, ""⟩
  | .ok text, some output =>
    match ← fs.writeText output text with
    | .ok _ => return ⟨0, "", ""⟩
    | .error fault => return (Failure.writing output fault).ending

/-- A run with a reader of arguments and a reader of style sheets. Arguments that do not fit end it
with code 2. -/
def serveWith (fs : FileSystem m φ) (parse : List String → Option Arguments) (read : Css.Reader)
    (args : List String) : m Ending :=
  match parse args with
  | none => return ⟨2, "", usage⟩
  | some .help => return ⟨0, usage, ""⟩
  | some (.flags f) => serveRequest fs read f.request

structure Exit extends Ending where
  folder : Folder

def serve (d : Folder) (args : List String) : Exit :=
  let r := serveWith (Folder.system none) (readArguments {}) Css.readSheet args d
  { r.1 with folder := r.2 }

end Unnest.CommandLine
