import Mathlib.Tactic.SplitIfs
import Unnest.Pass.Unnest
import Unnest.Proofs.Store.Holds

/-! The flat form of a list of trees, by recursion on the trees. A node that a copy of a rule stands
for has the label `fresh`. Only rules whose label is `due` are flattened, so that a pass can be seen
as one due rule after the other: `flatAll_flatAll` puts two such steps together. -/

namespace Unnest.Tree

variable {α : Type}

/-- What a child comes to in the block it stands in: it stays there, it stays unless something
before it has left, or it leaves. -/
inductive Share (α : Type) where
  | fixed (ts : List (Tree α))
  | movable (ts : List (Tree α))
  | lifted (ts : List (Tree α))

namespace Share

def isLifted : Share α → Bool
  | .lifted _ => true
  | _ => false

def trees : Share α → List (Tree α)
  | .fixed ts => ts
  | .movable ts => ts
  | .lifted ts => ts

/-- What stays in a rule; `split` tells that something has left already. -/
def kept : Bool → List (Share α) → List (Tree α)
  | _, [] => []
  | split, .fixed ts :: shares => ts ++ kept split shares
  | split, .movable ts :: shares => if split then kept split shares else ts ++ kept split shares
  | _, .lifted _ :: shares => kept true shares

/-- A copy of a rule that takes over some trees, if there are any. -/
def copy (fresh : α) (selectors : List String) (ts : List (Tree α)) : List (Tree α) :=
  if ts.isEmpty then [] else [.branch fresh (.rule selectors) ts]

/-- What leaves a rule. The movable trees behind a lifted one are `pending` until the next one. -/
def left (fresh : α) (selectors : List String) :
    Bool → List (Tree α) → List (Share α) → List (Tree α)
  | _, pending, [] => copy fresh selectors pending
  | split, pending, .fixed _ :: shares => left fresh selectors split pending shares
  | split, pending, .movable ts :: shares =>
    left fresh selectors split (if split then pending ++ ts else pending) shares
  | _, pending, .lifted ts :: shares =>
    copy fresh selectors pending ++ ts ++ left fresh selectors true [] shares

/-- A rule and what leaves it. A rule that loses everything is dropped unless the options preserve
it. -/
def apart (o : Options) (fresh a : α) (selectors : List String) (shares : List (Share α)) :
    List (Tree α) :=
  (if shares.any isLifted && !o.preserveEmpty && (kept false shares).isEmpty then []
    else [.branch a (.rule selectors) (kept false shares)])
  ++ left fresh selectors false [] shares

def leftovers : List (Share α) → List (Tree α)
  | [] => []
  | .lifted _ :: shares => leftovers shares
  | .fixed ts :: shares => ts ++ leftovers shares
  | .movable ts :: shares => ts ++ leftovers shares

def goers : List (Share α) → List (Tree α)
  | [] => []
  | .lifted ts :: shares => ts ++ goers shares
  | .fixed _ :: shares => goers shares
  | .movable _ :: shares => goers shares

/-- What cannot stand alone goes first, into a rule of its own. -/
def wrap (fresh : α) (selectors : List String) (shares : List (Share α)) : List (Tree α) :=
  copy fresh selectors (leftovers shares) ++ goers shares

end Share

open Selector Share

/-- A rule in its place: taken apart if it is due. -/
def place (o : Options) (fresh : α) (due : α → Bool) (a : α) (selectors : List String)
    (shares : List (Share α)) (children : List (Tree α)) : List (Tree α) :=
  if due a then apart o fresh a selectors shares else [.branch a (.rule selectors) children]

mutual

/-- What a tree in the list of the root or of an at-rule becomes. -/
def flat (o : Options) (fresh : α) (due : α → Bool) : Tree α → List (Tree α)
  | .leaf a l => [.leaf a l]
  | .statement a n p => [.statement a n p]
  | .branch a .root ts => [.branch a .root (flatAll o fresh due ts)]
  | .branch a (.atRule n p) ts => [.branch a (.atRule n p) (flatAll o fresh due ts)]
  | .branch a (.rule s) ts =>
    place o fresh due a s (shareAll o fresh due s ts) (flatAll o fresh due ts)

def flatAll (o : Options) (fresh : α) (due : α → Bool) : List (Tree α) → List (Tree α)
  | [] => []
  | t :: ts => flat o fresh due t ++ flatAll o fresh due ts

/-- What a child of a rule with the given selectors comes to. At-rules go by the first role that
their name fits. -/
def share (o : Options) (fresh : α) (due : α → Bool) (selectors : List String) :
    Tree α → Share α
  | .leaf a (.comment x) => .fixed [.leaf a (.comment x)]
  | .leaf a l => .movable [.leaf a l]
  | .statement a n p =>
    if o.namesRootRule n then .lifted []
    else if o.bubbles n || o.unwraps n then .lifted [.statement a n p]
    else .movable [.statement a n p]
  | .branch a .root ts => .fixed [.branch a .root (flatAll o fresh due ts)]
  | .branch a (.rule s) ts =>
    .lifted (place o fresh due a (nest selectors s) (shareAll o fresh due (nest selectors s) ts)
      (flatAll o fresh due ts))
  | .branch a (.atRule n p) ts =>
    if o.namesRootRule n then
      .lifted (wrap fresh ((rootPrelude p).getD selectors)
        (insideAll o fresh due true ((rootPrelude p).getD selectors) (rootPrelude p).isSome ts))
    else if o.bubbles n then
      .lifted [.branch a (.atRule n p)
        (wrap fresh selectors (insideAll o fresh due false selectors true ts))]
    else if o.unwraps n then .lifted [.branch a (.atRule n p) (flatAll o fresh due ts)]
    else .movable [.branch a (.atRule n p) (flatAll o fresh due ts)]

def shareAll (o : Options) (fresh : α) (due : α → Bool) (selectors : List String) :
    List (Tree α) → List (Share α)
  | [] => []
  | t :: ts => share o fresh due selectors t :: shareAll o fresh due selectors ts

/-- What a child of a bubbling at-rule, or of a root rule if `unwrap` is set, comes to. With `merge`
the rules in it are nested below `selectors`. -/
def inside (o : Options) (fresh : α) (due : α → Bool) (unwrap : Bool) (selectors : List String)
    (merge : Bool) : Tree α → Share α
  | .leaf a l => .movable [.leaf a l]
  | .statement a n p => .movable [.statement a n p]
  | .branch a .root ts => .movable [.branch a .root (flatAll o fresh due ts)]
  | .branch a (.rule s) ts =>
    if merge then
      .lifted (place o fresh due a (nest selectors s)
        (shareAll o fresh due (nest selectors s) ts) (flatAll o fresh due ts))
    else
      .lifted (place o fresh due a s (shareAll o fresh due s ts) (flatAll o fresh due ts))
  | .branch a (.atRule n p) ts =>
    if o.bubbles n then
      .lifted [.branch a (.atRule n p)
        (wrap fresh selectors (insideAll o fresh due false selectors merge ts))]
    else if unwrap && o.unwraps n then .lifted [.branch a (.atRule n p) (flatAll o fresh due ts)]
    else .movable [.branch a (.atRule n p) (flatAll o fresh due ts)]

def insideAll (o : Options) (fresh : α) (due : α → Bool) (unwrap : Bool)
    (selectors : List String) (merge : Bool) : List (Tree α) → List (Share α)
  | [] => []
  | t :: ts => inside o fresh due unwrap selectors merge t ::
      insideAll o fresh due unwrap selectors merge ts

end

variable {o : Options} {fresh : α}

theorem flatAll_append (due : α → Bool) (ts us : List (Tree α)) :
    flatAll o fresh due (ts ++ us) = flatAll o fresh due ts ++ flatAll o fresh due us := by
  induction ts with
  | nil => rfl
  | cons t ts ih => simp [flatAll, ih]

mutual

/-- A pass without due rules changes nothing. -/
theorem flat_of_not_due {due : α → Bool} : (t : Tree α) → (∀ a ∈ t.rules, due a = false) →
    flat o fresh due t = [t]
  | .leaf _ _, _ => rfl
  | .statement _ _ _, _ => rfl
  | .branch a .root ts, h => by
    rw [flat, flatAll_of_not_due ts fun b hb => h b (by simpa using hb)]
  | .branch a (.atRule n p) ts, h => by
    rw [flat, flatAll_of_not_due ts fun b hb => h b (by simpa using hb)]
  | .branch a (.rule s) ts, h => by
    rw [flat, place, h a (by simp),
      flatAll_of_not_due ts fun b hb => h b (by simp [hb])]
    simp

theorem flatAll_of_not_due {due : α → Bool} : (ts : List (Tree α)) →
    (∀ a ∈ rulesAll ts, due a = false) → flatAll o fresh due ts = ts
  | [], _ => rfl
  | t :: ts, h => by
    rw [flatAll, flat_of_not_due t fun b hb => h b (by simp [rulesAll, hb]),
      flatAll_of_not_due ts fun b hb => h b (by simp [rulesAll, hb])]
    rfl

end

theorem flatAll_still (o : Options) (fresh : α) (ts : List (Tree α)) :
    flatAll o fresh (fun _ => false) ts = ts :=
  flatAll_of_not_due ts fun _ _ => rfl

mutual

/-- Only what is due among the rules that are there matters. -/
theorem flat_congr {d e : α → Bool} : (t : Tree α) → (∀ a ∈ t.rules, d a = e a) →
    flat o fresh d t = flat o fresh e t
  | .leaf _ _, _ => rfl
  | .statement _ _ _, _ => rfl
  | .branch a .root ts, h => by
    rw [flat, flat, flatAll_congr ts fun b hb => h b (by simpa using hb)]
  | .branch a (.atRule n p) ts, h => by
    rw [flat, flat, flatAll_congr ts fun b hb => h b (by simpa using hb)]
  | .branch a (.rule s) ts, h => by
    have hts : ∀ b ∈ rulesAll ts, d b = e b := fun b hb => h b (by simp [hb])
    rw [flat, flat, place, place, h a (by simp), flatAll_congr ts hts,
      shareAll_congr ts hts]

theorem flatAll_congr {d e : α → Bool} : (ts : List (Tree α)) → (∀ a ∈ rulesAll ts, d a = e a) →
    flatAll o fresh d ts = flatAll o fresh e ts
  | [], _ => rfl
  | t :: ts, h => by
    rw [flatAll, flatAll, flat_congr t fun b hb => h b (by simp [rulesAll, hb]),
      flatAll_congr ts fun b hb => h b (by simp [rulesAll, hb])]

theorem share_congr {d e : α → Bool} {s : List String} : (t : Tree α) →
    (∀ a ∈ t.rules, d a = e a) → share o fresh d s t = share o fresh e s t
  | .leaf _ (.comment _), _ => rfl
  | .leaf _ (.declaration _), _ => rfl
  | .leaf _ (.raw _), _ => rfl
  | .statement _ _ _, _ => rfl
  | .branch a .root ts, h => by
    rw [share, share, flatAll_congr ts fun b hb => h b (by simpa using hb)]
  | .branch a (.atRule n p) ts, h => by
    have hts : ∀ b ∈ rulesAll ts, d b = e b :=
      fun b hb => h b (by simpa using hb)
    rw [share, share, flatAll_congr ts hts, insideAll_congr ts hts, insideAll_congr ts hts]
  | .branch a (.rule r) ts, h => by
    have hts : ∀ b ∈ rulesAll ts, d b = e b := fun b hb => h b (by simp [hb])
    rw [share, share, place, place, h a (by simp), flatAll_congr ts hts,
      shareAll_congr ts hts]

theorem shareAll_congr {d e : α → Bool} {s : List String} : (ts : List (Tree α)) →
    (∀ a ∈ rulesAll ts, d a = e a) → shareAll o fresh d s ts = shareAll o fresh e s ts
  | [], _ => rfl
  | t :: ts, h => by
    rw [shareAll, shareAll, share_congr t fun b hb => h b (by simp [rulesAll, hb]),
      shareAll_congr ts fun b hb => h b (by simp [rulesAll, hb])]

theorem inside_congr {d e : α → Bool} {unwrap merge : Bool} {s : List String} :
    (t : Tree α) → (∀ a ∈ t.rules, d a = e a) →
    inside o fresh d unwrap s merge t = inside o fresh e unwrap s merge t
  | .leaf _ _, _ => rfl
  | .statement _ _ _, _ => rfl
  | .branch a .root ts, h => by
    rw [inside, inside, flatAll_congr ts fun b hb => h b (by simpa using hb)]
  | .branch a (.atRule n p) ts, h => by
    have hts : ∀ b ∈ rulesAll ts, d b = e b :=
      fun b hb => h b (by simpa using hb)
    rw [inside, inside, flatAll_congr ts hts, insideAll_congr ts hts]
  | .branch a (.rule r) ts, h => by
    have hts : ∀ b ∈ rulesAll ts, d b = e b := fun b hb => h b (by simp [hb])
    simp only [inside, place, h a (by simp), flatAll_congr ts hts,
      shareAll_congr ts hts]

theorem insideAll_congr {d e : α → Bool} {unwrap merge : Bool} {s : List String} :
    (ts : List (Tree α)) → (∀ a ∈ rulesAll ts, d a = e a) →
    insideAll o fresh d unwrap s merge ts = insideAll o fresh e unwrap s merge ts
  | [], _ => rfl
  | t :: ts, h => by
    rw [insideAll, insideAll, inside_congr t fun b hb => h b (by simp [rulesAll, hb]),
      insideAll_congr ts fun b hb => h b (by simp [rulesAll, hb])]

end

/-! Two steps in a row. The first may not take apart a rule below one that waits for the second. -/

namespace Share

variable {β : Type}

def map (f : List (Tree α) → List (Tree β)) : Share α → Share β
  | .fixed ts => .fixed (f ts)
  | .movable ts => .movable (f ts)
  | .lifted ts => .lifted (f ts)

/-- No rule is among what stays. -/
def Still : Share α → Prop
  | .fixed ts => ∀ t ∈ ts, t.isRule = false
  | .movable ts => ∀ t ∈ ts, t.isRule = false
  | .lifted _ => True

@[simp] theorem isLifted_map (f : List (Tree α) → List (Tree β)) (x : Share α) :
    (x.map f).isLifted = x.isLifted := by
  cases x <;> rfl

theorem kept_still (split : Bool) {shares : List (Share α)} (h : ∀ x ∈ shares, x.Still) :
    ∀ t ∈ kept split shares, t.isRule = false := by
  induction shares generalizing split with
  | nil => simp [kept]
  | cons x shares ih =>
    obtain ⟨hx, hs⟩ := List.forall_mem_cons.1 h
    cases x with
    | fixed ts => exact List.forall_mem_append.2 ⟨hx, ih split hs⟩
    | movable ts =>
      rw [kept]
      split
      · exact ih _ hs
      · exact List.forall_mem_append.2 ⟨hx, ih _ hs⟩
    | lifted ts => exact ih true hs

theorem leftovers_still {shares : List (Share α)} (h : ∀ x ∈ shares, x.Still) :
    ∀ t ∈ leftovers shares, t.isRule = false := by
  induction shares with
  | nil => simp [leftovers]
  | cons x shares ih =>
    obtain ⟨hx, hs⟩ := List.forall_mem_cons.1 h
    cases x with
    | fixed ts => exact List.forall_mem_append.2 ⟨hx, ih hs⟩
    | movable ts => exact List.forall_mem_append.2 ⟨hx, ih hs⟩
    | lifted ts => exact ih hs

/-- A change of trees, one after the other, that treats a copy of a rule as what it holds. A label
stands for another one on the other side. -/
structure Piecewise (fresh : α) (fresh' : β) (f : List (Tree α) → List (Tree β)) : Prop where
  nil : f [] = []
  append : ∀ ts us, f (ts ++ us) = f ts ++ f us
  copy : ∀ s ts, (∀ t ∈ ts, t.isRule = false) → f (copy fresh s ts) = copy fresh' s (f ts)

namespace Piecewise

variable {fresh : α} {fresh' : β} {f : List (Tree α) → List (Tree β)}

theorem kept (hf : Piecewise fresh fresh' f) (split : Bool) (shares : List (Share α)) :
    f (Share.kept split shares) = Share.kept split (shares.map (Share.map f)) := by
  induction shares generalizing split with
  | nil => exact hf.nil
  | cons x shares ih =>
    cases x with
    | fixed ts => simp only [Share.kept, List.map_cons, Share.map, hf.append, ih]
    | movable ts =>
      simp only [Share.kept, List.map_cons, Share.map]
      split
      · exact ih _
      · rw [hf.append, ih]
    | lifted ts => exact ih true

theorem left (hf : Piecewise fresh fresh' f) (s : List String) (split : Bool)
    {pending : List (Tree α)} {shares : List (Share α)} (hp : ∀ t ∈ pending, t.isRule = false)
    (hs : ∀ x ∈ shares, x.Still) :
    f (Share.left fresh s split pending shares) =
      Share.left fresh' s split (f pending) (shares.map (Share.map f)) := by
  induction shares generalizing split pending with
  | nil => exact hf.copy s pending hp
  | cons x shares ih =>
    obtain ⟨hx, hrest⟩ := List.forall_mem_cons.1 hs
    cases x with
    | fixed ts => exact ih split hp hrest
    | movable ts =>
      simp only [Share.left, List.map_cons, Share.map]
      split
      · rw [ih _ (List.forall_mem_append.2 ⟨hp, hx⟩) hrest, hf.append]
      · exact ih _ hp hrest
    | lifted ts =>
      simp only [Share.left, List.map_cons, Share.map]
      rw [hf.append, hf.append, hf.copy s pending hp, ih true (List.forall_mem_nil _) hrest, hf.nil]

theorem leftovers (hf : Piecewise fresh fresh' f) (shares : List (Share α)) :
    f (Share.leftovers shares) = Share.leftovers (shares.map (Share.map f)) := by
  induction shares with
  | nil => exact hf.nil
  | cons x shares ih =>
    cases x <;> simp only [Share.leftovers, List.map_cons, Share.map, hf.append, ih]

theorem goers (hf : Piecewise fresh fresh' f) (shares : List (Share α)) :
    f (Share.goers shares) = Share.goers (shares.map (Share.map f)) := by
  induction shares with
  | nil => exact hf.nil
  | cons x shares ih =>
    cases x <;> simp only [Share.goers, List.map_cons, Share.map, hf.append, ih]

theorem wrap (hf : Piecewise fresh fresh' f) (s : List String) {shares : List (Share α)}
    (hs : ∀ x ∈ shares, x.Still) :
    f (Share.wrap fresh s shares) = Share.wrap fresh' s (shares.map (Share.map f)) := by
  rw [Share.wrap, Share.wrap, hf.append, hf.copy s _ (leftovers_still hs), hf.leftovers, hf.goers]

end Piecewise

end Share

theorem share_still (due : α → Bool) (s : List String) (t : Tree α) :
    (share o fresh due s t).Still := by
  rcases t with ⟨a, _ | _ | _⟩ | ⟨a, n, p⟩ | ⟨a, _ | r | ⟨n, p⟩, ts⟩ <;> simp only [share]
  all_goals try split_ifs
  all_goals simp [Still, Tree.isRule]

theorem inside_still (due : α → Bool) (unwrap merge : Bool) (s : List String) (t : Tree α) :
    (inside o fresh due unwrap s merge t).Still := by
  rcases t with ⟨a, l⟩ | ⟨a, n, p⟩ | ⟨a, _ | r | ⟨n, p⟩, ts⟩ <;> simp only [inside]
  all_goals try split_ifs
  all_goals simp [Still, Tree.isRule]

theorem shareAll_eq (due : α → Bool) (s : List String) (ts : List (Tree α)) :
    shareAll o fresh due s ts = ts.map (share o fresh due s) := by
  induction ts with
  | nil => rfl
  | cons t ts ih => simp [shareAll, ih]

theorem insideAll_eq (due : α → Bool) (unwrap merge : Bool) (s : List String)
    (ts : List (Tree α)) :
    insideAll o fresh due unwrap s merge ts = ts.map (inside o fresh due unwrap s merge) := by
  induction ts with
  | nil => rfl
  | cons t ts ih => simp [insideAll, ih]

theorem shareAll_still (due : α → Bool) (s : List String) (ts : List (Tree α)) :
    ∀ x ∈ shareAll o fresh due s ts, x.Still := by
  rw [shareAll_eq]
  exact List.forall_mem_map.2 fun t _ => share_still due s t

theorem insideAll_still (due : α → Bool) (unwrap merge : Bool) (s : List String)
    (ts : List (Tree α)) : ∀ x ∈ insideAll o fresh due unwrap s merge ts, x.Still := by
  rw [insideAll_eq]
  exact List.forall_mem_map.2 fun t _ => inside_still due unwrap merge s t

/-- What is not a rule stays one tree. -/
theorem flat_of_not_rule (o : Options) (fresh : α) (due : α → Bool) {t : Tree α}
    (h : t.isRule = false) : ∃ u, flat o fresh due t = [u] ∧ u.isRule = false := by
  rcases t with ⟨a, l⟩ | ⟨a, n, p⟩ | ⟨a, _ | r | ⟨n, p⟩, ts⟩
  · exact ⟨_, rfl, rfl⟩
  · exact ⟨_, rfl, rfl⟩
  · exact ⟨_, rfl, rfl⟩
  · simp [Tree.isRule] at h
  · exact ⟨_, rfl, rfl⟩

theorem isEmpty_flatAll (due : α → Bool) {ts : List (Tree α)} (h : ∀ t ∈ ts, t.isRule = false) :
    (flatAll o fresh due ts).isEmpty = ts.isEmpty := by
  cases ts with
  | nil => rfl
  | cons t ts =>
    obtain ⟨u, hu, -⟩ := flat_of_not_rule o fresh due (h t (by simp))
    simp [flatAll, hu]

theorem piecewise_flatAll {due : α → Bool} (hfresh : due fresh = false) :
    Piecewise fresh fresh (flatAll o fresh due) := by
  refine ⟨rfl, flatAll_append due, fun s ts hts => ?_⟩
  rw [copy, copy, isEmpty_flatAll due hts]
  split
  · rfl
  · simp [flatAll, flat, place, hfresh]

theorem flatAll_apart {due : α → Bool} (hfresh : due fresh = false) {a : α} (ha : due a = false)
    (s : List String) {shares : List (Share α)} (hs : ∀ x ∈ shares, x.Still) :
    flatAll o fresh due (apart o fresh a s shares) =
      apart o fresh a s (shares.map (Share.map (flatAll o fresh due))) := by
  have hf := piecewise_flatAll (o := o) hfresh
  have hany : (shares.map (Share.map (flatAll o fresh due))).any Share.isLifted =
      shares.any Share.isLifted := by simp [List.any_map, Function.comp_def]
  rw [apart, apart, hf.append, hf.left s false (List.forall_mem_nil _) hs, hf.nil, hany, ← hf.kept,
    isEmpty_flatAll due (kept_still false hs)]
  congr 1
  split
  · rfl
  · simp [flatAll, flat, place, ha]

mutual

/-- Each rule with each rule below it. -/
def nestings : Tree α → List (α × α)
  | .leaf _ _ => []
  | .statement _ _ _ => []
  | .branch a h ts => (if h.isRule then (rulesAll ts).map (a, ·) else []) ++ nestingsAll ts

def nestingsAll : List (Tree α) → List (α × α)
  | [] => []
  | t :: ts => t.nestings ++ nestingsAll ts

end

/-- A step that takes the rules in `d` apart may come before one for those in `e`: no rule is in
both, and none that the first takes apart is below one that waits for the second. -/
structure Before (d e : α → Bool) (rules : List α) (nestings : List (α × α)) : Prop where
  once : ∀ a ∈ rules, d a = true → e a = false
  above : ∀ x ∈ nestings, e x.1 = true → d x.2 = false

section Compose

variable {d e : α → Bool}

theorem Before.left {rs rs' : List α} {ns ns' : List (α × α)}
    (h : Before d e (rs ++ rs') (ns ++ ns')) : Before d e rs ns :=
  ⟨fun a ha => h.once a (List.mem_append_left _ ha),
    fun x hx => h.above x (List.mem_append_left _ hx)⟩

theorem Before.right {rs rs' : List α} {ns ns' : List (α × α)}
    (h : Before d e (rs ++ rs') (ns ++ ns')) : Before d e rs' ns' :=
  ⟨fun a ha => h.once a (List.mem_append_right _ ha),
    fun x hx => h.above x (List.mem_append_right _ hx)⟩

theorem Before.below {a : α} {hd : Head} {ts : List (Tree α)}
    (h : Before d e (Tree.branch a hd ts).rules (Tree.branch a hd ts).nestings) :
    Before d e (rulesAll ts) (nestingsAll ts) := by
  refine ⟨fun b hb => h.once b ?_, fun x hx => h.above x (List.mem_append_right _ hx)⟩
  cases hd with
  | root => exact hb
  | rule s => exact List.mem_cons_of_mem _ hb
  | atRule n p => exact hb

theorem flatAll_place (he : e fresh = false) {a : α} {s r : List String} {ts : List (Tree α)}
    (h : Before d e (Tree.branch a (.rule r) ts).rules (Tree.branch a (.rule r) ts).nestings)
    (hall : flatAll o fresh e (flatAll o fresh d ts) = flatAll o fresh (fun b => d b || e b) ts)
    (hshare : (shareAll o fresh d s ts).map (Share.map (flatAll o fresh e)) =
      shareAll o fresh (fun b => d b || e b) s ts) :
    flatAll o fresh e (place o fresh d a s (shareAll o fresh d s ts) (flatAll o fresh d ts)) =
      place o fresh (fun b => d b || e b) a s (shareAll o fresh (fun b => d b || e b) s ts)
        (flatAll o fresh (fun b => d b || e b) ts) := by
  cases hda : d a with
  | true =>
    have hea := h.once a List.mem_cons_self hda
    have hstill : ∀ x ∈ shareAll o fresh d s ts, x.Still := shareAll_still d s ts
    simp only [place, hda, Bool.true_or, if_true, flatAll_apart he hea s hstill, hshare]
  | false =>
    cases hea : e a with
    | true =>
      -- nothing below `a` was taken apart before
      have hno : ∀ b ∈ rulesAll ts, d b = false := fun b hb =>
        h.above (a, b) (List.mem_append_left _ (List.mem_map_of_mem hb)) hea
      have hcongr : shareAll o fresh e s ts = shareAll o fresh (fun b => d b || e b) s ts :=
        shareAll_congr ts fun b hb => by simp [hno b hb]
      simp [place, hda, hea, flatAll_of_not_due ts hno, flatAll, flat, hcongr]
    | false => simp [place, hda, hea, flatAll, flat, hall]

mutual

theorem flatAll_flat (he : e fresh = false) : (t : Tree α) → Before d e t.rules t.nestings →
    flatAll o fresh e (flat o fresh d t) = flat o fresh (fun b => d b || e b) t
  | .leaf _ _, _ => rfl
  | .statement _ _ _, _ => rfl
  | .branch a .root ts, h => by
    have hts := flatAll_flatAll he ts h.below
    simp [flat, flatAll, hts]
  | .branch a (.atRule n p) ts, h => by
    have hts := flatAll_flatAll he ts h.below
    simp [flat, flatAll, hts]
  | .branch a (.rule s) ts, h => by
    rw [flat, flat]
    exact flatAll_place he h (flatAll_flatAll he ts h.below) (map_shareAll he ts h.below)

theorem flatAll_flatAll (he : e fresh = false) : (ts : List (Tree α)) →
    Before d e (rulesAll ts) (nestingsAll ts) →
    flatAll o fresh e (flatAll o fresh d ts) = flatAll o fresh (fun b => d b || e b) ts
  | [], _ => rfl
  | t :: ts, h => by
    rw [flatAll, flatAll, flatAll_append, flatAll_flat he t h.left, flatAll_flatAll he ts h.right]

theorem map_share (he : e fresh = false) {s : List String} : (t : Tree α) →
    Before d e t.rules t.nestings →
    (share o fresh d s t).map (flatAll o fresh e) = share o fresh (fun b => d b || e b) s t
  | .leaf _ (.comment _), _ => rfl
  | .leaf _ (.declaration _), _ => rfl
  | .leaf _ (.raw _), _ => rfl
  | .statement a n p, _ => by
    simp only [share]
    split_ifs <;> rfl
  | .branch a .root ts, h => by
    have hts := flatAll_flatAll he ts h.below
    simp [share, Share.map, flat, flatAll, hts]
  | .branch a (.rule r) ts, h => by
    rw [share, share, Share.map,
      flatAll_place he h (flatAll_flatAll he ts h.below) (map_shareAll he ts h.below)]
  | .branch a (.atRule n p) ts, h => by
    have hts := flatAll_flatAll he ts h.below
    have hin : ∀ unwrap s merge, (insideAll o fresh d unwrap s merge ts).map
        (Share.map (flatAll o fresh e)) =
          insideAll o fresh (fun b => d b || e b) unwrap s merge ts := fun _ _ _ =>
      map_insideAll he ts h.below
    simp only [share]
    split_ifs
    · rw [Share.map, (piecewise_flatAll he).wrap _ (insideAll_still d _ _ _ ts), hin]
    · simp only [Share.map, flatAll, flat,
        (piecewise_flatAll he).wrap _ (insideAll_still d _ _ _ ts), hin, List.append_nil]
    · simp only [Share.map, flatAll, flat, hts, List.append_nil]
    · simp only [Share.map, flatAll, flat, hts, List.append_nil]

theorem map_shareAll (he : e fresh = false) {s : List String} : (ts : List (Tree α)) →
    Before d e (rulesAll ts) (nestingsAll ts) →
    (shareAll o fresh d s ts).map (Share.map (flatAll o fresh e)) =
      shareAll o fresh (fun b => d b || e b) s ts
  | [], _ => rfl
  | t :: ts, h => by
    rw [shareAll, shareAll, List.map_cons, map_share he t h.left, map_shareAll he ts h.right]

theorem map_inside (he : e fresh = false) {unwrap merge : Bool} {s : List String} : (t : Tree α) →
    Before d e t.rules t.nestings →
    (inside o fresh d unwrap s merge t).map (flatAll o fresh e) =
      inside o fresh (fun b => d b || e b) unwrap s merge t
  | .leaf _ _, _ => rfl
  | .statement _ _ _, _ => rfl
  | .branch a .root ts, h => by
    have hts := flatAll_flatAll he ts h.below
    simp [inside, Share.map, flat, flatAll, hts]
  | .branch a (.rule r) ts, h => by
    have hplace := fun s => flatAll_place (o := o) (s := s) he h (flatAll_flatAll he ts h.below)
      (map_shareAll he ts h.below)
    simp only [inside]
    split_ifs <;> rw [Share.map, hplace]
  | .branch a (.atRule n p) ts, h => by
    have hts := flatAll_flatAll he ts h.below
    simp only [inside]
    split_ifs
    · simp only [Share.map, flatAll, flat,
        (piecewise_flatAll he).wrap _ (insideAll_still d _ _ _ ts), map_insideAll he ts h.below,
        List.append_nil]
    · simp only [Share.map, flatAll, flat, hts, List.append_nil]
    · simp only [Share.map, flatAll, flat, hts, List.append_nil]

theorem map_insideAll (he : e fresh = false) {unwrap merge : Bool} {s : List String} :
    (ts : List (Tree α)) → Before d e (rulesAll ts) (nestingsAll ts) →
    (insideAll o fresh d unwrap s merge ts).map (Share.map (flatAll o fresh e)) =
      insideAll o fresh (fun b => d b || e b) unwrap s merge ts
  | [], _ => rfl
  | t :: ts, h => by
    rw [insideAll, insideAll, List.map_cons, map_inside he t h.left, map_insideAll he ts h.right]

end

end Compose

end Unnest.Tree
