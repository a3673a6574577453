import Unnest.Store.Reclaim
import Unnest.Session.Handles
import Unnest.Session.Command
import Unnest.Session.Reply

/-! Carrying out the commands of a session. After every command the nodes that nothing holds are
given up; handles hold their nodes, and while a pass runs its document and its listed rules are held
too. -/

namespace Unnest.Session

/-- A command at work: it may be refused, and what it changed before that stays. -/
abbrev Act (α : Type) := EStateM Refusal (Scene Handles) α

/-- Commands at work inside others, given the nodes those hold. -/
abbrev Player := List NodeId → Scene Handles → List Answer × Scene Handles

namespace Act

variable {α : Type}

def ofEdit (e : Edit Handles α) : Act α := fun sc =>
  match e sc with
  | .ok a sc => .ok a sc
  | .error f sc => .error (.failed f) sc

def look (f : Store → α) : Act α := fun sc => .ok (f sc.store) sc

def nameOf (n : NodeId) : Act String := fun sc => .ok (sc.own.nameOf sc.store n) sc

def bind (name : String) (n : NodeId) : Act Unit := fun sc =>
  .ok () { sc with own := sc.own.bind name n }

def register (hs : Handles) (t : Tree (Option String × NodeId)) : Handles :=
  t.labels.foldl (fun hs l => (l.1.map fun name => hs.bind name l.2).getD hs) hs

def resolve : Target → Act NodeId
  | .handle name => fun sc =>
    match sc.own.find? name with
    | some n => .ok n sc
    | none => .error (.unknownHandle name) sc
  | .fresh t => fun sc =>
    let built := sc.store.plant t
    .ok built.1.label.2 { sc with store := built.2, own := register sc.own built.1 }

def tidy (held : List NodeId) : Act Unit := fun sc =>
  .ok () { sc with store := sc.store.reclaim (held ++ sc.own.nodes) }

/-- The node a command works on. A new tree may take over handles, and what they held is given up at
once. -/
def node (held : List NodeId) (target : Target) : Act NodeId := do
  let n ← resolve target
  tidy (n :: held)
  return n

def nodes (held : List NodeId) (first second : Target) : Act (NodeId × NodeId) := do
  let a ← node held first
  let b ← node (a :: held) second
  return (a, b)

def refuseCycle (container n : NodeId) : Act Unit := do
  if (← look (·.nodesUnder n)).contains container then throw .cycle

end Act

open Act

def selectorText? (s : Store) (n : NodeId) : Option String :=
  (s.selectors? n).map Selector.listText

def shownTree (hs : Handles) (s : Store) (n : NodeId) : Option (Tree (Option String)) :=
  (s.tree? n).map (Tree.map hs.handleOf?)

def factsOf (s : Store) (n : NodeId) : Option Facts :=
  (s.get? n).map fun x =>
    { kind := x.kind
      isRule := x.isRule
      selectorText := selectorText? s n
      attached := s.reachesRoot n
      ruleAncestor := s.isBelowRule n
      hasLink := s.hasLink n }

/-- Whether two declarations are equal; nothing for other nodes. -/
def sameDeclaration? (s : Store) (a b : NodeId) : Option Bool :=
  match s.get? a, s.get? b with
  | some (.leaf (.declaration d)), some (.leaf (.declaration e)) => some (d = e)
  | _, _ => none

def move (held : List NodeId) (op : Store → NodeId → NodeId → Outcome) (parent child : Target) :
    Act Reply := do
  let (p, n) ← nodes held parent child
  refuseCycle p n
  ofEdit (Edit.attempt (op · p n))
  return .name (← nameOf n)

structure Watch where
  handles : Handles
  calls : List (Call Answer)

def inside (play : Scene Handles → List Answer × Scene Handles) (sc : Scene Watch) :
    List Answer × Scene Watch :=
  let r := play { store := sc.store, log := sc.log, own := sc.own.handles }
  (r.1, { store := r.2.store, log := r.2.log, own := { sc.own with handles := r.2.own } })

def playAt (players : List (Nat × Player)) (held : List NodeId) (k : Nat) (sc : Scene Watch) :
    Option (List Answer) × Scene Watch :=
  match players.lookup k with
  | none => (none, sc)
  | some p =>
    let r := inside (p held) sc
    (some r.1, r.2)

def handlerAt (st : Settings) (k : Nat) (rule : NodeId) : Edit Watch Unit :=
  if st.failAt = some k then throw (.print st.failText)
  else if st.idle then pure ()
  else Pass.unnest st.options rule

/-- One call of a watched pass. The commands behind it are carried out also when it failed. -/
def watched (st : Settings) (before after : List (Nat × Player)) (held : List NodeId)
    (doc rule : NodeId) : Edit Watch Unit := fun sc =>
  let k := sc.own.calls.length + 1
  let named :=
    (sc.own.handles.nameOf sc.store rule, (selectorText? sc.store rule).getD "")
  let first := playAt before held k sc
  let result := handlerAt st k rule first.2
  let finish (sc : Scene Watch) : Scene Watch :=
    let sc := { sc with store := sc.store.reclaim (held ++ sc.own.handles.nodes) }
    let last := playAt after held k sc
    let shown := if st.showText then some (last.2.store.print doc) else none
    let call : Call Answer :=
      { rule := named, before := first.1, after := last.1, shown := shown }
    { last.2 with own := { last.2.own with calls := last.2.own.calls ++ [call] } }
  match result with
  | .ok _ sc => .ok () (finish sc)
  | .error e sc => .error e (finish sc)

def runWatched (st : Settings) (before after : List (Nat × Player)) (held : List NodeId)
    (doc : NodeId) : Act Reply := fun sc =>
  let held := doc :: sc.store.rulesUnder doc ++ held
  let pass := Pass.sweep st.options (watched st before after held doc) doc
  let report (outcome : Except Error Stats) (after : Scene Watch) :
      EStateM.Result Refusal (Scene Handles) Reply :=
    let log := if st.showLog then some (after.log.toList.drop sc.log.size) else none
    .ok (.report outcome after.own.calls log)
      { store := after.store, log := after.log, own := after.own.handles }
  match pass { store := sc.store, log := sc.log, own := ⟨sc.own, []⟩ } with
  | .ok stats after => report (.ok stats) after
  | .error e after => report (.error e) after

/-- A command is over: its reply, with what nothing holds given up. -/
def settle (held : List NodeId) (act : Act Reply) (sc : Scene Handles) :
    Answer × Scene Handles :=
  let tidied (sc : Scene Handles) : Scene Handles :=
    { sc with store := sc.store.reclaim (held ++ sc.own.nodes) }
  match act sc with
  | .ok r sc => (.ok r, tidied sc)
  | .error e sc => (.error e, tidied sc)

def namesOf (ns : List NodeId) : Act (List String) := ns.mapM nameOf

mutual

def act (held : List NodeId) : Command → Act Reply
  | .build target name => do
    let n ← node held target
    match name with
    | some name => bind name n
    | none => pure ()
    return .nothing
  | .drop name => fun sc =>
    .ok (.flag (sc.own.find? name).isSome) { sc with own := sc.own.drop name }
  | .append p c => move held Store.append p c
  | .prepend p c => move held Store.prepend p c
  | .insertAfter anchor target => do
    let (a, n) ← nodes held anchor target
    match ← look (·.parent? a) with
    | some p => if a != n then refuseCycle p n
    | none => pure ()
    ofEdit (Edit.attempt (·.insertAfter a n))
    return .nothing
  | .remove p c => do
    let (p, n) ← nodes held p c
    return .flag (← ofEdit (Edit.change (·.remove p n)))
  | .detach target => do
    let n ← node held target
    return .flag (← ofEdit (Edit.change (·.detach n)))
  | .push p c => do
    let (p, n) ← nodes held p c
    refuseCycle p n
    return ((← ofEdit (Edit.change (·.push p n))).map .number).getD .nothing
  | .clear p => do
    let p ← node held p
    return ((← ofEdit (Edit.change (·.clear p))).map .number).getD .nothing
  | .setSelectors target selectors => do
    let n ← node held target
    ofEdit (Edit.change fun s => ((), s.editSelectors n fun _ => selectors))
    return .flag (← look (·.isRule n))
  | .parent target => do
    let n ← node held target
    match ← look (·.parent? n) with
    | some p => return .name (← nameOf p)
    | none => return .nothing
  | .children target => do
    let n ← node held target
    match ← look (·.children? n) with
    | some cs => return .names (← namesOf cs)
    | none => return .nothing
  | .top target => do
    let n ← node held target
    return .names (← namesOf (← look (·.children n)))
  | .info target => do
    let n ← node held target
    return ((← look (factsOf · n)).map .facts).getD .nothing
  | .sameDeclaration a b => do
    let (a, b) ← nodes held a b
    return ((← look (sameDeclaration? · a b)).map .flag).getD .nothing
  | .print target => do
    let n ← node held target
    return .text (← look (·.print n))
  | .dump target => do
    let n ← node held target
    fun sc => .ok (((shownTree sc.own sc.store n).map .tree).getD .nothing) sc
  | .rules target => do
    let n ← node held target
    let rules ← look (·.rulesUnder n)
    return .rules (← rules.mapM fun r => do
      return (← nameOf r, ((← look (selectorText? · r))).getD ""))
  | .expand target options => do
    let n ← node held target
    ofEdit (Pass.unnest options n)
    return .nothing
  | .run target settings before after => do
    let n ← node held target
    runWatched settings (players before) (players after) held n

/-- One command after the other, each settled before the next. -/
def play : List Command → Player
  | [], _, sc => ([], sc)
  | c :: cs, held, sc =>
    let first := settle held (act held c) sc
    let rest := play cs held first.2
    (first.1 :: rest.1, rest.2)

def players : List (Nat × List Command) → List (Nat × Player)
  | [] => []
  | (k, cs) :: hs => (k, play cs) :: players hs

end

/-- A new session: an empty document with the handle `doc`. -/
def start : Scene Handles :=
  let doc := Store.empty.alloc (.root [])
  { store := doc.2, log := #[], own := [("doc", doc.1)] }

def docText? (sc : Scene Handles) : Option String :=
  (sc.own.find? "doc").map sc.store.print

/-- The answers of a session, each with the document's text after it. -/
def playShown : Scene Handles → List Command → List (Answer × Option String)
  | _, [] => []
  | sc, c :: cs =>
    let r := settle [] (act [] c) sc
    (r.1, docText? r.2) :: playShown r.2 cs

def answers (cs : List Command) : List Answer := (play cs [] start).1

end Unnest.Session
