import Unnest.Pass.Options

/-! The arguments of the command line. -/

namespace Unnest.CommandLine

/-- The arguments as they are written, without what they mean for a pass. -/
structure Flags where
  files : List String := []
  preserveEmpty : Bool := false
  bubble : List String := []
  unwrap : List String := []
  rootRuleName : Option String := none
  dispatchStale : Bool := false
deriving DecidableEq

inductive Arguments where
  | help
  | flags (f : Flags)

/-- Whether an argument is read as a flag wherever it stands. A lone dash is a file name. -/
def isFlag (a : String) : Bool :=
  match a.toList with
  | '-' :: _ :: _ => true
  | _ => false

/-- The name of a long flag, and the value written behind an equals sign. -/
def splitFlag (a : String) : String × Option String :=
  let name := a.toList.takeWhile (· != '=')
  match a.toList.dropWhile (· != '=') with
  | [] => (a, none)
  | _ :: value => (String.ofList name, some (String.ofList value))

namespace Flags

def withSwitch (f : Flags) (name : String) : Option Flags :=
  if name = "--preserve-empty" ∧ f.preserveEmpty = false then
    some { f with preserveEmpty := true }
  else if name = "--dispatch-stale" ∧ f.dispatchStale = false then
    some { f with dispatchStale := true }
  else none

/-- The names of at-rules may be given any number of times, the root rule's name once. -/
def withValue (f : Flags) (name value : String) : Option Flags :=
  if name = "--bubble" then some { f with bubble := f.bubble ++ [value] }
  else if name = "--unwrap" then some { f with unwrap := f.unwrap ++ [value] }
  else if name = "--root-rule-name" ∧ f.rootRuleName = none then
    some { f with rootRuleName := some value }
  else none

def withFile (f : Flags) (file : String) : Option Flags :=
  if f.files.length < 2 then some { f with files := f.files ++ [file] } else none

end Flags

def takesValue (name : String) : Bool :=
  ["--bubble", "--unwrap", "--root-rule-name"].contains name

/-- The arguments read from left to right, nothing if one does not fit. Behind `--` all arguments are
file names. -/
def readArguments (f : Flags) : List String → Option Arguments
  | [] => if f.files.isEmpty then none else some (.flags f)
  | a :: rest =>
    if a = "--" then
      (rest.foldlM Flags.withFile f).bind fun f =>
        if f.files.isEmpty then none else some (.flags f)
    else if isFlag a then
      if a = "--help" ∨ a = "-h" then some .help
      else
        let flag := splitFlag a
        match flag.2, rest with
        | some value, rest => (f.withValue flag.1 value).bind fun f => readArguments f rest
        | none, value :: rest' =>
          if takesValue flag.1 then
            if isFlag value then none
            else (f.withValue flag.1 value).bind fun f => readArguments f rest'
          else (f.withSwitch flag.1).bind fun f => readArguments f (value :: rest')
        | none, [] => (f.withSwitch flag.1).bind fun f => readArguments f []
    else (f.withFile a).bind fun f => readArguments f rest

def Flags.options (f : Flags) : Options :=
  let o : Options := { preserveEmpty := f.preserveEmpty }
  let o := f.bubble.foldl Options.alsoBubble o
  let o := f.unwrap.foldl Options.alsoUnwrap o
  let o := (f.rootRuleName.map o.withRootRule).getD o
  if f.dispatchStale then { o with stale := .dispatch } else o

end Unnest.CommandLine
