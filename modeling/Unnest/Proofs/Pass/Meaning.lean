import Mathlib.Algebra.Order.Group.Multiset
import Unnest.Proofs.Pass.Completeness

/-! What a style sheet says, and that a pass keeps it. Each leaf counts with the at-rules around it
and the selectors it is for: in a nested sheet the selectors of a rule are to be put under those of
the nearest rule around it, in a flat one they are the rule's own. Where only bubbling at-rules
stand below rules, a pass turns the one reading into the other. -/

namespace Unnest

open Tree Store Selector

/-- A leaf, the at-rules around it from outside in, and the selectors it is for. -/
structure Entry where
  leaf : Leaf
  chain : List (String × String)
  selectors : Option (List String)
deriving DecidableEq

/-- Where selectors come from: those of a rule, given what is around it, and those that reach into
an at-rule. -/
structure Reading where
  rule : Option (List String) → List String → List String
  atRule : Option (List String) → Option (List String)

/-- The selectors stored in the rule that holds a leaf. -/
def asStored : Reading := ⟨fun _ s => s, fun _ => none⟩

/-- The resolved selectors of the nearest rule around a leaf. -/
def asMeant : Reading := ⟨fun around s => around.elim s (nest · s), id⟩

namespace Tree

variable {α β : Type} {o : Options} {fresh : α}

mutual

/-- The entries of a tree, in a reading. -/
def entries (r : Reading) (chain : List (String × String)) (around : Option (List String)) :
    Tree α → List Entry
  | .leaf _ l => [⟨l, chain, around⟩]
  | .statement _ _ _ => []
  | .branch _ .root ts => entriesAll r chain none ts
  | .branch _ (.rule s) ts => entriesAll r chain (some (r.rule around s)) ts
  | .branch _ (.atRule n p) ts => entriesAll r (chain ++ [(n, p)]) (r.atRule around) ts

def entriesAll (r : Reading) (chain : List (String × String)) (around : Option (List String)) :
    List (Tree α) → List Entry
  | [] => []
  | t :: ts => entries r chain around t ++ entriesAll r chain around ts

end

mutual

/-- Every at-rule below a rule is a block that bubbles. -/
def bubblesOnly (o : Options) (below : Bool) : Tree α → Bool
  | .leaf _ _ => true
  | .statement _ _ _ => !below
  | .branch _ .root ts => !below && bubblesOnlyAll o below ts
  | .branch _ (.rule _) ts => bubblesOnlyAll o true ts
  | .branch _ (.atRule n _) ts =>
    (!below || (o.bubbles n && !o.namesRootRule n)) && bubblesOnlyAll o below ts

def bubblesOnlyAll (o : Options) (below : Bool) : List (Tree α) → Bool
  | [] => true
  | t :: ts => bubblesOnly o below t && bubblesOnlyAll o below ts

end

theorem bubblesOnlyAll_iff (below : Bool) (ts : List (Tree α)) :
    bubblesOnlyAll o below ts = true ↔ ∀ t ∈ ts, bubblesOnly o below t = true := by
  induction ts with
  | nil => simp [bubblesOnlyAll]
  | cons t ts ih => simp [bubblesOnlyAll, ih]

theorem entriesAll_append (r : Reading) (chain : List (String × String))
    (around : Option (List String)) (ts us : List (Tree α)) :
    entriesAll r chain around (ts ++ us) =
      entriesAll r chain around ts ++ entriesAll r chain around us := by
  induction ts with
  | nil => rfl
  | cons t ts ih => simp [entriesAll, ih]

mutual

theorem entries_map (r : Reading) (f : α → β) (chain : List (String × String))
    (around : Option (List String)) :
    (t : Tree α) → entries r chain around (t.map f) = entries r chain around t
  | .leaf _ _ => rfl
  | .statement _ _ _ => rfl
  | .branch _ .root ts => entriesAll_mapAll r f chain none ts
  | .branch _ (.rule s) ts => entriesAll_mapAll r f chain (some (r.rule around s)) ts
  | .branch _ (.atRule n p) ts => entriesAll_mapAll r f (chain ++ [(n, p)]) (r.atRule around) ts

theorem entriesAll_mapAll (r : Reading) (f : α → β) (chain : List (String × String))
    (around : Option (List String)) : (ts : List (Tree α)) →
    entriesAll r chain around (mapAll f ts) = entriesAll r chain around ts
  | [] => rfl
  | t :: ts => by
    rw [mapAll, entriesAll, entriesAll, entries_map r f chain around t,
      entriesAll_mapAll r f chain around ts]

end

mutual

theorem bubblesOnly_map (f : α → β) (below : Bool) :
    (t : Tree α) → bubblesOnly o below (t.map f) = bubblesOnly o below t
  | .leaf _ _ => rfl
  | .statement _ _ _ => rfl
  | .branch _ .root ts => congrArg (!below && ·) (bubblesOnlyAll_mapAll f below ts)
  | .branch _ (.rule _) ts => bubblesOnlyAll_mapAll f true ts
  | .branch _ (.atRule n _) ts =>
    congrArg ((!below || (o.bubbles n && !o.namesRootRule n)) && ·)
      (bubblesOnlyAll_mapAll f below ts)

theorem bubblesOnlyAll_mapAll (f : α → β) (below : Bool) : (ts : List (Tree α)) →
    bubblesOnlyAll o below (mapAll f ts) = bubblesOnlyAll o below ts
  | [] => rfl
  | t :: ts => by
    rw [mapAll, bubblesOnlyAll, bubblesOnlyAll, bubblesOnly_map f below t,
      bubblesOnlyAll_mapAll f below ts]

end

section Bubbling

variable {a : α} {n q : String} {ts : List (Tree α)}

/-- An at-rule below a rule bubbles, and so does everything that it holds. -/
theorem bubblesOnly_atRule (h : bubblesOnly o true (.branch a (.atRule n q) ts) = true) :
    o.bubbles n = true ∧ o.namesRootRule n = false ∧ bubblesOnlyAll o true ts = true := by
  simpa [bubblesOnly, and_assoc] using h

theorem share_bubbling (due : α → Bool) (s : List String)
    (h : bubblesOnly o true (.branch a (.atRule n q) ts) = true) :
    share o fresh due s (.branch a (.atRule n q) ts) =
      .lifted [.branch a (.atRule n q)
        (Share.wrap fresh s (insideAll o fresh due false s true ts))] := by
  obtain ⟨hbubbles, hroot, -⟩ := bubblesOnly_atRule h
  simp only [share, hbubbles, hroot, Bool.false_eq_true, if_false, if_true]

theorem inside_bubbling (due : α → Bool) (s : List String)
    (h : bubblesOnly o true (.branch a (.atRule n q) ts) = true) :
    inside o fresh due false s true (.branch a (.atRule n q) ts) =
      .lifted [.branch a (.atRule n q)
        (Share.wrap fresh s (insideAll o fresh due false s true ts))] := by
  simp only [inside, (bubblesOnly_atRule h).1, if_true]

end Bubbling

/-- Entries do not come in order where rules are taken apart. -/
def stored (chain : List (String × String)) (holder : Option (List String)) (ts : List (Tree α)) :
    Multiset Entry := entriesAll asStored chain holder ts

/-- What shares in a rule with the given selectors come to. -/
def storedBy (chain : List (String × String)) (selectors : List String) :
    List (Share α) → Multiset Entry :=
  Share.total (stored chain (some selectors)) (stored chain none)

variable {chain : List (String × String)} {s : List String}

theorem adds_stored (holder : Option (List String)) :
    Adds (stored chain holder : List (Tree α) → Multiset Entry) :=
  ⟨rfl, fun ts us => by rw [stored, entriesAll_append, ← Multiset.coe_add]; rfl⟩

theorem stored_rule (a : α) (ts : List (Tree α)) :
    stored chain none [.branch a (.rule s) ts] = stored chain (some s) ts := by
  simp [stored, entriesAll, entries, asStored]

theorem stored_atRule (a : α) (n q : String) (holder : Option (List String)) (ts : List (Tree α)) :
    stored chain holder [.branch a (.atRule n q) ts] = stored (chain ++ [(n, q)]) none ts := by
  simp [stored, entriesAll, entries, asStored]

theorem stored_root (a : α) (ts : List (Tree α)) :
    stored chain none [.branch a .root ts] = stored chain none ts := by
  simp [stored, entriesAll, entries]

theorem stored_apart (a : α) (shares : List (Share α)) :
    stored chain none (Share.apart o fresh a s shares) = storedBy chain s shares :=
  Share.total_apart (adds_stored _) (adds_stored _) (fun ts _ => stored_rule fresh ts)
    (stored_rule a) shares

theorem stored_wrap (shares : List (Share α)) :
    stored chain none (Share.wrap fresh s shares) = storedBy chain s shares :=
  Share.total_wrap (adds_stored _) (adds_stored _) (fun ts _ => stored_rule fresh ts) shares

theorem storedBy_cons (x : Share α) (shares : List (Share α)) :
    storedBy chain s (x :: shares) = storedBy chain s [x] + storedBy chain s shares :=
  Share.total_cons x shares

theorem storedBy_lifted (ts : List (Tree α)) :
    storedBy chain s [.lifted ts] = stored chain none ts := by
  simp [storedBy, Share.total]

/-- What the entries are to be. -/
def meant (chain : List (String × String)) (around : Option (List String)) (ts : List (Tree α)) :
    Multiset Entry := entriesAll asMeant chain around ts

theorem meant_cons (around : Option (List String)) (t : Tree α) (ts : List (Tree α)) :
    meant chain around (t :: ts) = meant chain around [t] + meant chain around ts := by
  simp [meant, entriesAll]

theorem meant_rule (around : Option (List String)) (a : α) (ts : List (Tree α)) :
    meant chain around [.branch a (.rule s) ts] =
      meant chain (some (around.elim s (nest · s))) ts := by
  simp [meant, entriesAll, entries, asMeant]

theorem meant_atRule (around : Option (List String)) (a : α) (n q : String) (ts : List (Tree α)) :
    meant chain around [.branch a (.atRule n q) ts] = meant (chain ++ [(n, q)]) around ts := by
  simp [meant, entriesAll, entries, asMeant]

theorem meant_root (a : α) (ts : List (Tree α)) :
    meant chain none [.branch a .root ts] = meant chain none ts := by
  simp [meant, entriesAll, entries]

mutual

theorem stored_flat (chain : List (String × String)) : (t : Tree α) →
    bubblesOnly o false t = true →
    stored chain none (flat o fresh (fun _ => true) t) = meant chain none [t]
  | .leaf _ _, _ => rfl
  | .statement _ _ _, _ => rfl
  | .branch a .root ts, h => by
    have hts : bubblesOnlyAll o false ts = true := h
    rw [flat, stored_root, meant_root, stored_flatAll chain ts hts]
  | .branch a (.atRule n q) ts, h => by
    rw [flat, stored_atRule, meant_atRule, stored_flatAll _ ts h]
  | .branch a (.rule r) ts, h => by
    rw [flat, place, if_pos rfl, stored_apart, meant_rule, storedBy_shareAll chain r ts h]
    rfl

theorem stored_flatAll (chain : List (String × String)) : (ts : List (Tree α)) →
    bubblesOnlyAll o false ts = true →
    stored chain none (flatAll o fresh (fun _ => true) ts) = meant chain none ts
  | [], _ => rfl
  | t :: ts, h => by
    obtain ⟨ht, hts⟩ := Bool.and_eq_true_iff.1 h
    rw [flatAll, (adds_stored none).append, stored_flat chain t ht, stored_flatAll chain ts hts,
      ← meant_cons]

theorem storedBy_share (chain : List (String × String)) (s : List String) : (t : Tree α) →
    bubblesOnly o true t = true →
    storedBy chain s [share o fresh (fun _ => true) s t] = meant chain (some s) [t]
  | .leaf _ (.comment _), _ => rfl
  | .leaf _ (.declaration _), _ => rfl
  | .leaf _ (.raw _), _ => rfl
  | .statement a n q, h => by cases h
  | .branch a .root ts, h => by cases h
  | .branch a (.rule r) ts, h => by
    rw [share, storedBy_lifted, place, if_pos rfl, stored_apart, meant_rule,
      storedBy_shareAll chain (nest s r) ts h]
    rfl
  | .branch a (.atRule n q) ts, h => by
    rw [share_bubbling _ s h, storedBy_lifted, stored_atRule, stored_wrap, meant_atRule,
      storedBy_insideAll _ s ts (bubblesOnly_atRule h).2.2]

theorem storedBy_shareAll (chain : List (String × String)) (s : List String) :
    (ts : List (Tree α)) → bubblesOnlyAll o true ts = true →
    storedBy chain s (shareAll o fresh (fun _ => true) s ts) = meant chain (some s) ts
  | [], _ => rfl
  | t :: ts, h => by
    obtain ⟨ht, hts⟩ := Bool.and_eq_true_iff.1 h
    rw [shareAll, storedBy_cons, storedBy_share chain s t ht, storedBy_shareAll chain s ts hts,
      ← meant_cons]

theorem storedBy_inside (chain : List (String × String)) (s : List String) : (t : Tree α) →
    bubblesOnly o true t = true →
    storedBy chain s [inside o fresh (fun _ => true) false s true t] = meant chain (some s) [t]
  | .leaf _ _, _ => rfl
  | .statement a n q, h => by cases h
  | .branch a .root ts, h => by cases h
  | .branch a (.rule r) ts, h => by
    rw [inside, if_pos rfl, storedBy_lifted, place, if_pos rfl, stored_apart, meant_rule,
      storedBy_shareAll chain (nest s r) ts h]
    rfl
  | .branch a (.atRule n q) ts, h => by
    rw [inside_bubbling _ s h, storedBy_lifted, stored_atRule, stored_wrap, meant_atRule,
      storedBy_insideAll _ s ts (bubblesOnly_atRule h).2.2]

theorem storedBy_insideAll (chain : List (String × String)) (s : List String) :
    (ts : List (Tree α)) → bubblesOnlyAll o true ts = true →
    storedBy chain s (insideAll o fresh (fun _ => true) false s true ts) = meant chain (some s) ts
  | [], _ => rfl
  | t :: ts, h => by
    obtain ⟨ht, hts⟩ := Bool.and_eq_true_iff.1 h
    rw [insideAll, storedBy_cons, storedBy_inside chain s t ht, storedBy_insideAll chain s ts hts,
      ← meant_cons]

end

/-- Whether a rule stands around the place. -/
def Place.below : Place → Bool
  | .outside => false
  | .inRule => true
  | .inBubbling => true
  | .inRootRule => true

mutual

theorem clear_of_bubblesOnly {place : Place} (hplace : place ≠ .inRootRule) : (t : Tree α) →
    bubblesOnly o place.below t = true → clear o fresh place t = true
  | .leaf _ _, _ => rfl
  | .statement _ _ _, _ => rfl
  | .branch a .root ts, h => by
    cases place with
    | outside =>
      have hts : bubblesOnlyAll o false ts = true := h
      exact clearAll_of_bubblesOnlyAll hplace ts hts
    | inRule => cases h
    | inBubbling => cases h
    | inRootRule => exact absurd rfl hplace
  | .branch a (.rule r) ts, h => by
    have hts : clearAll o fresh .inRule ts = true :=
      clearAll_of_bubblesOnlyAll Place.noConfusion ts h
    cases place <;> exact hts
  | .branch a (.atRule n q) ts, h => by
    rw [bubblesOnly, Bool.and_eq_true] at h
    cases place with
    | outside => exact clearAll_of_bubblesOnlyAll hplace ts h.2
    | inRule =>
      have hname : o.bubbles n = true ∧ o.namesRootRule n = false := by
        simpa [Place.below] using h.1
      simp only [clear, Place.enter?, hname.1, hname.2, Bool.false_eq_true, if_false, if_true]
      exact clearAll_of_bubblesOnlyAll Place.noConfusion ts h.2
    | inBubbling =>
      have hname : o.bubbles n = true ∧ o.namesRootRule n = false := by
        simpa [Place.below] using h.1
      simp only [clear, Place.enter?, hname.1, if_true]
      exact clearAll_of_bubblesOnlyAll hplace ts h.2
    | inRootRule => exact absurd rfl hplace

theorem clearAll_of_bubblesOnlyAll {place : Place} (hplace : place ≠ .inRootRule) :
    (ts : List (Tree α)) → bubblesOnlyAll o place.below ts = true → clearAll o fresh place ts = true
  | [], _ => rfl
  | t :: ts, h => by
    obtain ⟨ht, hts⟩ := Bool.and_eq_true_iff.1 h
    rw [clearAll, clear_of_bubblesOnly hplace t ht, clearAll_of_bubblesOnlyAll hplace ts hts]
    rfl

end

end Tree

namespace Pass

variable {ρ : Type} {s : Store} {doc : NodeId} {ts : List (Tree NodeId)}

/-- With only bubbling at-rules below rules, a pass leaves no rule below a rule, and what the
document said by nesting is what it has stored then. -/
theorem flatten_keeps_meaning (o : Options) (h : s.IsDocument doc ts)
    (hb : bubblesOnlyAll o false ts = true) (log : Array Event) (own : ρ) :
    ∃ st s' ts' log', flatten o doc ⟨s, log, own⟩ = .ok st ⟨s', log', own⟩ ∧
      s'.IsDocument doc ts' ∧ nestingsAll ts' = [] ∧
      (entriesAll asStored [] none ts').Perm (entriesAll asMeant [] none ts) := by
  obtain ⟨s', ts', hrun, hbecomes, hts⟩ := runs_flatten (ρ := ρ) o h
  obtain ⟨log', hok⟩ := hrun log own
  have hsome : bubblesOnlyAll o false (mapAll some ts) = true := by
    rw [bubblesOnlyAll_mapAll, hb]
  refine ⟨_, s', ts', log', hok, hbecomes.part.isDocument,
    (nestings_eq_nil_iff hts).2 (clearAll_of_bubblesOnlyAll Place.noConfusion _ hsome), ?_⟩
  have hflat : stored [] none (flatAll o none (fun _ => true) (mapAll some ts)) =
      meant [] none (mapAll some ts) := stored_flatAll [] _ hsome
  rw [← hts, stored, meant, entriesAll_mapAll, entriesAll_mapAll] at hflat
  exact Multiset.coe_eq_coe.1 hflat

/-- A bubbling at-rule in a rule, with a declaration and a rule of its own. -/
def mediaTrees : List (Tree NodeId) :=
  [.branch 1 (.rule ["a"]) [.branch 2 (.atRule "media" "print")
    [.leaf 3 (.raw "x"), .branch 4 (.rule ["b"]) [.leaf 5 (.raw "y")]]]]

def mediaStore : Store :=
  ⟨#[some (.root [1]), some (.rule ["a"] [2] (some 0)),
    some (.atRule "media" "print" (some [3, 4]) (some 1)), some (.leaf (.raw "x")),
    some (.rule ["b"] [5] (some 2)), some (.leaf (.raw "y"))]⟩

theorem mediaStore_isDocument : mediaStore.IsDocument 0 mediaTrees :=
  ⟨rfl, ⟨⟨rfl, ⟨rfl, rfl, ⟨rfl, rfl, trivial⟩, trivial⟩, trivial⟩, trivial⟩, by decide⟩

theorem flatten_mediaStore :
    ∃ st s' ts' log', flatten {} 0 ⟨mediaStore, #[], ()⟩ = .ok st ⟨s', log', ()⟩ ∧
      s'.IsDocument 0 ts' ∧ nestingsAll ts' = [] ∧
      (entriesAll asStored [] none ts').Perm
        [⟨.raw "x", [("media", "print")], some ["a"]⟩,
          ⟨.raw "y", [("media", "print")], some ["a b"]⟩] :=
  flatten_keeps_meaning {} mediaStore_isDocument (by rfl) #[] ()

end Pass

end Unnest
