import Unnest.Store.Basic

/-! Names for nodes. Handles are kept in alphabetical order, so the first one that stands for a node
is the name it is shown by. -/

namespace Unnest.Session

abbrev Handles := List (String × NodeId)

namespace Handles

/-- Makes `name` stand for `n`, whatever it stood for before. -/
def bind (name : String) (n : NodeId) : Handles → Handles
  | [] => [(name, n)]
  | h :: hs =>
    if name < h.1 then (name, n) :: h :: hs
    else if name = h.1 then (name, n) :: hs
    else h :: bind name n hs

def drop (hs : Handles) (name : String) : Handles := hs.filter (·.1 != name)

def find? (hs : Handles) (name : String) : Option NodeId := hs.lookup name

def handleOf? (hs : Handles) (n : NodeId) : Option String :=
  (List.find? (·.2 == n) hs).map (·.1)

/-- How a node is shown: by its handle, else by its kind. -/
def nameOf (hs : Handles) (s : Store) (n : NodeId) : String :=
  (hs.handleOf? n).getD ("<" ++ (((s.get? n).map (·.kind.text)).getD "") ++ ">")

def nodes (hs : Handles) : List NodeId := hs.map (·.2)

end Handles

end Unnest.Session
