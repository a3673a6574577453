import Unnest.Proofs.Store.Placement

/-! What a refused operation leaves behind. A list and a printed tree say nothing about links, so both
are told by the nodes without them (`bare`), and an operation that keeps all bare nodes but one keeps
all that is printed without that one. -/

namespace Unnest

namespace Node

/-- An at-rule without a block. -/
def isStatement : Node → Bool
  | .atRule _ _ none _ => true
  | _ => false

/-- Taking out what is not there gives a statement a block and changes nothing else. -/
theorem editChildren_erase_of_not_mem {x : Node} {n : NodeId} (hx : x.isStatement = false)
    (hn : n ∉ x.children?.getD []) : x.editChildren (·.erase n) = x := by
  rcases x with l | cs | ⟨sel, cs, l⟩ | ⟨a, q, _ | cs, l⟩
  · rfl
  · exact congrArg Node.root (List.erase_of_not_mem hn)
  · exact congrArg (Node.rule sel · l) (List.erase_of_not_mem hn)
  · simp [isStatement] at hx
  · exact congrArg (fun cs => Node.atRule a q (some cs) l) (List.erase_of_not_mem hn)

theorem editChildren_congr {x : Node} {f g : List NodeId → List NodeId}
    (h : f (x.children?.getD []) = g (x.children?.getD [])) :
    x.editChildren f = x.editChildren g := by
  cases x with
  | leaf l => rfl
  | root cs => exact congrArg Node.root h
  | rule sel cs l => exact congrArg (Node.rule sel · l) h
  | atRule a q block l => exact congrArg (fun cs => Node.atRule a q (some cs) l) h

theorem editChildren_of_not_container {x : Node} (hx : x.isContainer = false)
    (f : List NodeId → List NodeId) : x.editChildren f = x := by
  cases x with
  | leaf l => rfl
  | root _ => simp [isContainer] at hx
  | rule _ _ _ => simp [isContainer] at hx
  | atRule _ _ _ _ => simp [isContainer] at hx

end Node

namespace Store

variable {s s' : Store} {n p q anchor : NodeId}

def isStatement (s : Store) (n : NodeId) : Bool := (s.get? n).any Node.isStatement

/-- The node without its link. -/
def bare (s : Store) (n : NodeId) : Option Node := (s.get? n).map (Node.withLink none)

theorem children?_eq_bare (s : Store) (n : NodeId) :
    s.children? n = (s.bare n).bind Node.children? := by
  unfold children? bare
  cases s.get? n <;> simp

/-- A step down depends on the bare node. -/
theorem view?_succ (s : Store) (bound : Nat) (n : NodeId) :
    s.view? (bound + 1) n =
      match s.bare n with
      | none => none
      | some (.leaf l) => some (.leaf n l)
      | some (.root cs) => some (.branch n .root (cs.filterMap (s.view? bound)))
      | some (.rule sel cs _) => some (.branch n (.rule sel) (cs.filterMap (s.view? bound)))
      | some (.atRule name params none _) => some (.statement n name params)
      | some (.atRule name params (some cs) _) =>
        some (.branch n (.atRule name params) (cs.filterMap (s.view? bound))) := by
  rw [view?, bare]
  rcases s.get? n with _ | l | cs | ⟨sel, cs, l⟩ | ⟨a, q, _ | cs, l⟩ <;> rfl

theorem view?_congr {bound : Nat} {n : NodeId} (h : ∀ m, s.Reaches n m → s'.bare m = s.bare m) :
    s'.view? bound n = s.view? bound n := by
  induction bound generalizing n with
  | zero => rfl
  | succ bound ih =>
    have hbelow : ∀ cs, s.children? n = some cs →
        cs.filterMap (s'.view? bound) = cs.filterMap (s.view? bound) := by
      intro cs hcs
      apply List.filterMap_congr
      intro c hc
      have hlist : s.Lists n c := by simpa [Lists, Store.children, hcs] using hc
      exact ih fun m hm => h m (Relation.ReflTransGen.head hlist hm)
    rw [children?_eq_bare] at hbelow
    rw [view?_succ, view?_succ, h n Relation.ReflTransGen.refl]
    generalize s.bare n = x at hbelow ⊢
    rcases x with _ | l | cs | ⟨sel, cs, l⟩ | ⟨a, q, _ | cs, l⟩
    · rfl
    · rfl
    · simp [hbelow cs rfl]
    · simp [hbelow cs rfl]
    · rfl
    · simp [hbelow cs rfl]

theorem print_congr (hsize : s'.size = s.size) (h : ∀ k, s.Reaches n k → s'.bare k = s.bare k) :
    s'.print n = s.print n := by
  unfold print tree?
  rw [hsize, view?_congr h]

theorem bare_modify_withLink (s : Store) (n m : NodeId) (l : Option NodeId) :
    (s.modify n (Node.withLink l)).bare m = s.bare m := by
  unfold bare
  rw [get?_modify]
  split <;> cases s.get? m <;> simp

theorem bare_modify_of_ne (s : Store) {p m : NodeId} (hm : m ≠ p) (f : Node → Node) :
    (s.modify p f).bare m = s.bare m := by
  unfold bare
  rw [get?_modify, if_neg (Ne.symm hm)]

theorem bare_detach (s : Store) {n m : NodeId} (hm : s.parent? n ≠ some m) :
    (s.detach n).2.bare m = s.bare m := by
  unfold detach
  cases hp : s.parent? n with
  | none => exact bare_modify_withLink s n m none
  | some p =>
    have hne : m ≠ p := fun he => hm (he ▸ hp)
    unfold remove
    dsimp only
    split
    · rw [bare_modify_withLink, bare_modify_of_ne s hne]
    · exact bare_modify_of_ne s hne _

/-- All child lists, all containers and all that is printed is as before, except for the lists of
the nodes `edited`, the containers of the nodes `moved` and the print of what lies above the nodes
`edited`. -/
structure AsBefore (s : Store) (edited moved : List NodeId) (s' : Store) : Prop where
  lists : ∀ m, m ∉ edited → s'.children? m = s.children? m
  containers : ∀ m, m ∉ moved → s'.parent? m = s.parent? m
  printed : ∀ m, (∀ p ∈ edited, ¬ s.Reaches m p) → s'.print m = s.print m

theorem AsBefore.of_bare {edited moved : List NodeId} (hsize : s'.size = s.size)
    (hbare : ∀ m, m ∉ edited → s'.bare m = s.bare m)
    (hlinks : ∀ m, m ∉ moved → s'.parent? m = s.parent? m) : AsBefore s edited moved s' := by
  refine ⟨fun m hm => ?_, hlinks, fun m hm => ?_⟩
  · rw [children?_eq_bare, children?_eq_bare, hbare m hm]
  · exact print_congr hsize fun k hk => hbare k fun he => hm k he hk

theorem AsBefore.of_get? (hsize : s'.size = s.size) (h : ∀ m, s'.get? m = s.get? m) :
    AsBefore s [] [] s' := by
  refine AsBefore.of_bare hsize (fun m _ => ?_) (fun m _ => ?_)
  · rw [bare, h, bare]
  · unfold parent?
    simp only [h]

theorem AsBefore.congr {s₁ : Store} {edited moved : List NodeId} (h : AsBefore s edited moved s₁)
    (hsize : s'.size = s₁.size) (hget : ∀ m, s'.get? m = s₁.get? m) :
    AsBefore s edited moved s' := by
  have hsame : AsBefore s₁ [] [] s' := AsBefore.of_get? hsize hget
  refine ⟨fun m hm => ?_, fun m hm => ?_, fun m hm => ?_⟩
  · rw [hsame.lists m List.not_mem_nil, h.lists m hm]
  · rw [hsame.containers m List.not_mem_nil, h.containers m hm]
  · rw [hsame.printed m (fun p hp => absurd hp List.not_mem_nil), h.printed m hm]

theorem AsBefore.refl (s : Store) : AsBefore s [] [] s := AsBefore.of_get? rfl fun _ => rfl

/-! Each refusal by itself. -/

/-- A container that takes nothing in has been asked before anything moved. -/
theorem asBefore_of_insert_error {add : List NodeId → List NodeId} {e : Error}
    (h : s.insert p n add = .error e s') : AsBefore s [] [] s' := by
  unfold insert at h
  split at h
  · obtain ⟨-, rfl⟩ := EStateM.Result.error.inj h
    exact AsBefore.refl s
  · split at h
    · cases h
    · obtain ⟨-, rfl⟩ := EStateM.Result.error.inj h
      exact AsBefore.refl s

theorem remove_false (h : s.remove p n = (false, s')) :
    n ∉ s.children p ∧ s' = s.modify p (Node.editChildren (·.erase n)) := by
  unfold remove at h
  obtain ⟨hfound, hs⟩ := Prod.mk.inj h
  have hn : n ∉ s.children p := by simpa using hfound
  exact ⟨hn, by simpa [hn] using hs.symm⟩

theorem not_isStatement (h : s.isContainer p = false) : s.isStatement p = false := by
  unfold Store.isContainer at h
  unfold isStatement
  cases hx : s.get? p with
  | none => rfl
  | some x => cases x <;> simp_all [Node.isContainer, Node.isStatement]

theorem asBefore_of_remove_false (h : s.remove p n = (false, s'))
    (hp : s.isStatement p = false) : AsBefore s [] [] s' := by
  obtain ⟨hn, rfl⟩ := remove_false h
  refine AsBefore.of_get? (size_modify ..) fun m => ?_
  rw [get?_modify]
  split
  · next he =>
    subst he
    unfold isStatement at hp
    unfold Store.children children? at hn
    cases hx : s.get? p with
    | none => rfl
    | some x =>
      rw [hx] at hp hn
      exact congrArg some (Node.editChildren_erase_of_not_mem (by simpa using hp) hn)
  · rfl

/-- A statement asked for a child answers with the child list it has had to make. -/
theorem block_of_remove_false (h : s.remove p n = (false, s')) (hp : s.isStatement p = true) :
    s'.children? p = some [] ∧ AsBefore s [p] [] s' := by
  obtain ⟨hn, rfl⟩ := remove_false h
  refine ⟨?_, AsBefore.of_bare (size_modify ..) (fun m hm => ?_) fun m _ => ?_⟩
  · unfold isStatement at hp
    rw [children?_modify_editChildren]
    unfold Store.children children? Store.isContainer
    rcases hx : s.get? p with _ | l | cs | ⟨sel, cs, l⟩ | ⟨a, q, _ | cs, l⟩ <;>
      simp_all [Node.isStatement, Node.isContainer, Node.children?]
  · exact bare_modify_of_ne s (by simpa using hm) _
  · exact parent?_congr (alike_modify s p (Node.tracksContainer_editChildren · _)
      (Node.isContainer_editChildren · _)) (link?_modify _ _ _ (Node.link_editChildren · _))

/-- A node that stands nowhere loses at most a link that leads nowhere. -/
theorem asBefore_detach_of_none (h : s.parent? n = none) : AsBefore s [] [] (s.detach n).2 := by
  refine AsBefore.of_bare (alike_detach s n).size (fun m _ => ?_) (fun m _ => ?_)
  · exact bare_detach s (by simp [h])
  · by_cases hm : m = n
    · subst hm
      have hlink : (s.detach m).2.link? m = none := by
        unfold detach
        rw [h]
        dsimp only
        rw [link?_modify_withLink]
        cases ht : s.tracksContainer m with
        | true => simp
        | false => simpa using link?_of_not_tracks ht
      rw [h, parent?_eq, hlink]
      rfl
    · exact parent?_detach_ne s hm

theorem asBefore_detach_of_some (h : s.parent? n = some q) : AsBefore s [q] [n] (s.detach n).2 := by
  refine AsBefore.of_bare (alike_detach s n).size (fun m hm => ?_) (fun m hm => ?_)
  · refine bare_detach s fun he => hm ?_
    simp [Option.some.inj (h.symm.trans he)]
  · exact parent?_detach_ne s (by simpa using hm)

/-- What is left when `n` has been taken out of `q` and nothing else has happened: the list of `q` has
lost `n`, and all that is printed is what that makes of it. -/
structure TakenOut (s : Store) (q n : NodeId) (s' : Store) : Prop where
  container : s'.parent? n = none
  list : s'.children? q = (s.children? q).map (without n)
  printed : ∀ m, s'.print m = (s.modify q (Node.editChildren (without n))).print m

theorem TakenOut.congr {s₁ : Store} (h : TakenOut s q n s₁) (hsize : s'.size = s₁.size)
    (hget : ∀ m, s'.get? m = s₁.get? m) : TakenOut s q n s' := by
  have hsame : AsBefore s₁ [] [] s' := AsBefore.of_get? hsize hget
  refine ⟨?_, ?_, fun m => ?_⟩
  · rw [hsame.containers n List.not_mem_nil, h.container]
  · rw [hsame.lists q List.not_mem_nil, h.list]
  · rw [hsame.printed m (by simp), h.printed m]

theorem Coherent.get?_modify_without (h : s.Coherent) (hq : s.parent? n = some q) (m : NodeId) :
    (s.modify q (Node.editChildren (·.erase n))).get? m =
      (s.modify q (Node.editChildren (without n))).get? m := by
  rw [get?_modify, get?_modify]
  split
  · next he =>
    subst he
    have hcount := h.count_le (Ordered.tracks_of_parent? hq) q
    unfold Store.children children? at hcount
    cases hx : s.get? q with
    | none => rfl
    | some x =>
      rw [hx] at hcount
      exact congrArg some (Node.editChildren_congr (without_eq_erase hcount).symm)
  · rfl

theorem Coherent.takenOut_detach (h : s.Coherent) (hq : s.parent? n = some q)
    (hn : n ∈ s.children q) : TakenOut s q n (s.detach n).2 := by
  have hdetach : (s.detach n).2 =
      (s.modify q (Node.editChildren (·.erase n))).modify n (Node.withLink none) := by
    simp [detach, hq, remove, hn]
  refine ⟨?_, h.children?_detach hq, fun m => ?_⟩
  · rw [detach, hq, parent?_remove, if_pos ⟨rfl, hn⟩]
  · rw [hdetach]
    refine print_congr (by simp) fun k _ => ?_
    rw [bare_modify_withLink, bare, h.get?_modify_without hq, bare]

/-- A node leaves the container it links to, unless that is a leaf: a leaf has no list to lose it
from. -/
theorem Coherent.asBefore_or_takenOut (h : s.Coherent) (hq : s.parent? n = some q) :
    AsBefore s [] [] (s.detach n).2 ∨ TakenOut s q n (s.detach n).2 := by
  by_cases hn : n ∈ s.children q
  · exact .inr (h.takenOut_detach hq hn)
  · have hleaf : s.isContainer q = false := by
      cases hc : s.isContainer q with
      | false => rfl
      | true => exact absurd (h.mem_of_parent? hc hq) hn
    have hrefused : s.remove q n = (false, (s.detach n).2) := by simp [detach, hq, remove, hn]
    exact .inl (asBefore_of_remove_false hrefused (not_isStatement hleaf))

/-- When nothing can be put behind `anchor`, the node has been detached and no more. -/
theorem Coherent.get?_of_insertAfter_error (h : s.Coherent) {e : Error}
    (he : s.insertAfter anchor n = .error e s') :
    s'.size = (s.detach n).2.size ∧ ∀ m, s'.get? m = (s.detach n).2.get? m := by
  unfold insertAfter at he
  split at he
  · cases he
  · next hne =>
    dsimp only at he
    rw [parent?_detach_ne s hne] at he
    split at he
    · obtain ⟨-, rfl⟩ := EStateM.Result.error.inj he
      exact ⟨rfl, fun _ => rfl⟩
    · next q hq =>
      split at he
      · cases he
      · next hfound =>
        -- a container would still list the anchor, so `q` is a leaf
        have hleaf : (s.detach n).2.isContainer q = false := by
          rw [(alike_detach s n).isContainer]
          cases hc : s.isContainer q with
          | false => rfl
          | true =>
            have hmem := h.mem_of_parent? hc hq
            refine absurd (List.contains_iff_mem.2 ?_) hfound
            rw [Store.children_detach]
            split
            · exact (List.mem_erase_of_ne hne).2 hmem
            · exact hmem
        obtain ⟨-, rfl⟩ := EStateM.Result.error.inj he
        refine ⟨size_modify .., fun m => ?_⟩
        rw [get?_modify]
        split
        · next hm =>
          subst hm
          unfold Store.isContainer at hleaf
          cases hx : (s.detach n).2.get? q with
          | none => rfl
          | some x =>
            rw [hx] at hleaf
            exact congrArg some (Node.editChildren_of_not_container (by simpa using hleaf) _)
        · rfl

/-- A refused operation leaves everything as it was, but for two marks. A statement that is asked for
a child it does not have gains an empty block, as at every first use of its child list; that shows
where it is printed and nowhere else. And where nothing can be put behind `anchor`, either nothing has
happened or `n` has been taken out of the container it has stood in. -/
theorem refused_asBefore (h : s.Coherent) (p n anchor : NodeId) :
    (∀ e s', s.append p n = .error e s' → AsBefore s [] [] s') ∧
    (∀ e s', s.prepend p n = .error e s' → AsBefore s [] [] s') ∧
    (∀ s', s.remove p n = (false, s') → s.isStatement p = false → AsBefore s [] [] s') ∧
    (∀ s', s.remove p n = (false, s') → s.isStatement p = true →
      s'.children? p = some [] ∧ AsBefore s [p] [] s') ∧
    (∀ e s', s.insertAfter anchor n = .error e s' → s.parent? n = none → AsBefore s [] [] s') ∧
    ∀ e s' q, s.insertAfter anchor n = .error e s' → s.parent? n = some q →
      (AsBefore s [] [] s' ∨ TakenOut s q n s') ∧ AsBefore s [q] [n] s' := by
  refine ⟨fun e s' he => asBefore_of_insert_error he, fun e s' he => asBefore_of_insert_error he,
    fun s' he hp => asBefore_of_remove_false he hp, fun s' he hp => block_of_remove_false he hp,
    fun e s' he hn => ?_, fun e s' q he hq => ?_⟩
  · obtain ⟨hsize, hget⟩ := h.get?_of_insertAfter_error he
    exact (asBefore_detach_of_none hn).congr hsize hget
  · obtain ⟨hsize, hget⟩ := h.get?_of_insertAfter_error he
    refine ⟨?_, (asBefore_detach_of_some hq).congr hsize hget⟩
    exact (h.asBefore_or_takenOut hq).imp (·.congr hsize hget) (·.congr hsize hget)

/-- A document with a rule, and a statement, a rule and a comment that stand nowhere. -/
def scrapStore : Store :=
  ⟨#[some (.root [1]), some (.rule ["a"] [] (some 0)), some (.atRule "import" "x" none none),
    some (.rule ["b"] [] none), some (.leaf (.comment "c"))]⟩

theorem scrapStore_coherent : scrapStore.Coherent := by
  let s₀ : Store :=
    ⟨#[some (.root []), some (.rule ["a"] [] none), some (.atRule "import" "x" none none),
      some (.rule ["b"] [] none), some (.leaf (.comment "c"))]⟩
  have h₀ : s₀.InOrder := ((((inOrder_empty.alloc (x := .root []) rfl).alloc
    (x := .rule ["a"] [] none) rfl).alloc (x := .atRule "import" "x" none none) rfl).alloc
    (x := .rule ["b"] [] none) rfl).alloc (x := .leaf (.comment "c")) rfl
  have h₁ : scrapStore.InOrder := h₀.append (p := 0) (n := 1) rfl (not_reaches rfl (by decide))
  exact h₁.coherent

/-- Both marks: the import has a block, and the rule `a` has left the document for a place behind
the rule `b` that there is not. -/
theorem refused_leaves_marks :
    scrapStore.Coherent ∧
    (∃ s', scrapStore.remove 2 1 = (false, s') ∧ scrapStore.children? 2 = none ∧
      s'.children? 2 = some [] ∧ scrapStore.print 2 = "@import x;\n" ∧
      s'.print 2 = "@import x \x7b\x7d\n") ∧
    ∃ s', scrapStore.insertAfter 3 1 = .error .detached s' ∧ scrapStore.parent? 1 = some 0 ∧
      s'.parent? 1 = none ∧ scrapStore.children? 0 = some [1] ∧ s'.children? 0 = some [] :=
  ⟨scrapStore_coherent, ⟨_, rfl, rfl, rfl, by decide +kernel, by decide +kernel⟩, _, rfl, rfl, rfl,
    rfl, rfl⟩

/-- A move into a comment, two removals and two moves behind a rule without a container. -/
theorem refused_asBefore_in_scrap :
    scrapStore.Coherent ∧
    (∃ s', scrapStore.append 4 1 = .error (.notAContainer .comment) s' ∧
      AsBefore scrapStore [] [] s') ∧
    (∃ s', scrapStore.prepend 4 1 = .error (.notAContainer .comment) s' ∧
      AsBefore scrapStore [] [] s') ∧
    (∃ s', scrapStore.remove 1 3 = (false, s') ∧ AsBefore scrapStore [] [] s') ∧
    (∃ s', scrapStore.remove 2 3 = (false, s') ∧ s'.children? 2 = some [] ∧
      AsBefore scrapStore [2] [] s') ∧
    (∃ s', scrapStore.insertAfter 3 2 = .error .detached s' ∧ AsBefore scrapStore [] [] s') ∧
    ∃ s', scrapStore.insertAfter 3 1 = .error .detached s' ∧
      (AsBefore scrapStore [] [] s' ∨ TakenOut scrapStore 0 1 s') ∧
      AsBefore scrapStore [0] [1] s' := by
  have hleaf := refused_asBefore scrapStore_coherent 4 1 3
  have hrule := refused_asBefore scrapStore_coherent 1 3 3
  have hstatement := refused_asBefore scrapStore_coherent 2 3 3
  have hnowhere := refused_asBefore scrapStore_coherent 0 2 3
  refine ⟨scrapStore_coherent, ⟨_, rfl, hleaf.1 _ _ rfl⟩, ⟨_, rfl, hleaf.2.1 _ _ rfl⟩,
    ⟨_, rfl, hrule.2.2.1 _ rfl rfl⟩, ⟨_, rfl, hstatement.2.2.2.1 _ rfl rfl⟩,
    ⟨_, rfl, hnowhere.2.2.2.2.1 _ _ rfl rfl⟩, _, rfl, hleaf.2.2.2.2.2 _ _ 0 rfl rfl⟩

end Store

end Unnest
