import Unnest.CommandLine.Files

/-! A file system that is one folder with what is in it. Names are followed level by level; what is
outside of the folder is not known and taken to be missing. -/

namespace Unnest.CommandLine

abbrev Path := List String

def Path.ofString (name : String) : Path :=
  let r := name.toList.foldr (fun c (r : List Char × List String) =>
    if c = '/' then ([], String.ofList r.1 :: r.2) else (c :: r.1, r.2)) ([], [])
  String.ofList r.1 :: r.2

def Path.text (p : Path) : String := "/".intercalate p

structure Folder where
  files : List (Path × ByteArray)

namespace Folder

def content? (d : Folder) (p : Path) : Option ByteArray := d.files.lookup p

/-- Whether `p` is a folder: the outermost one, or one on the way to a file. -/
def isFolder (d : Folder) (p : Path) : Bool :=
  p.isEmpty || d.files.any fun f => p.isPrefixOf f.1 && p.length < f.1.length

def faultAt (d : Folder) (p : Path) : FileFault :=
  if (d.content? p).isSome then .notFolder else .missing

/-- One level on from `p`, which has to be a folder. -/
def step (d : Folder) (p : Path) (level : String) : Except FileFault Path :=
  if d.isFolder p = false then .error (d.faultAt p)
  else if level = "." then .ok p
  else if level = ".." then if p.isEmpty then .error .missing else .ok p.dropLast
  else .ok (p ++ [level])

/-- The place that a name leads to, and whether the name ends with a slash, as only those of folders
may. A name that is empty or starts with a slash leads to no place in the folder. -/
def locate (d : Folder) (name : String) : Except FileFault (Path × Bool) := do
  let levels := Path.ofString name
  if levels.head? = some "" then .error .missing
  else
    let p ← (levels.filter (· != "")).foldlM d.step []
    return (p, levels.getLast? == some "")

def read (d : Folder) (name : String) : Except FileFault ByteArray := do
  let (p, closed) ← d.locate name
  if d.isFolder p then .error .isFolder
  else
    match d.content? p with
    | none => .error .missing
    | some bytes => if closed then .error .notFolder else .ok bytes

/-- The place of the file that a name leads to, or would lead to if it was there. -/
def placeFor (d : Folder) (name : String) : Except FileFault Path := do
  let (p, closed) ← d.locate name
  if closed ∨ d.isFolder p then .error .isFolder else .ok p

def put (d : Folder) (p : Path) (bytes : ByteArray) : Folder :=
  if (d.content? p).isSome then ⟨d.files.map fun f => if f.1 = p then (p, bytes) else f⟩
  else ⟨d.files ++ [(p, bytes)]⟩

/-- The calls on a folder whose files take no more than `limit` bytes, if there is a limit. -/
def system (limit : Option Nat) : FileSystem (StateM Folder) Path where
  readAll name := return (← get).read name
  create name := do
    let d ← get
    match d.placeFor name with
    | .error fault => return .error fault
    | .ok p =>
      set (d.put p .empty)
      return .ok p
  writeAll p bytes := do
    let d ← get
    match d.content? p with
    | none => return .error .missing
    | some before =>
      let room := (limit.map (· - before.size)).getD bytes.size
      if bytes.size ≤ room then
        set (d.put p (before ++ bytes))
        return .ok ()
      else
        set (d.put p (before ++ bytes.extract 0 room))
        return .error (.other "File too large (os error 27)")

def changes (before after : Folder) : List (Path × ByteArray) :=
  after.files.filter fun f => (before.content? f.1).map (·.data) != some f.2.data

end Folder

end Unnest.CommandLine
