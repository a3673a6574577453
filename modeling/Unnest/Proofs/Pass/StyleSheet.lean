import Unnest.Flatten
import Unnest.CommandLine.Request
import Unnest.Proofs.Store.Plant
import Unnest.Proofs.Pass.Settled

/-! Style sheets that were read from text, with the options that the command line can ask for. Flags
add names but take none away, so every at-rule of such a sheet bubbles; one that is the root rule as
well bubbles wherever it is not directly in a rule. That leaves only declarations and kept text in
the rules. -/

namespace Unnest

open Tree Store

namespace CommandLine

theorem bubble_subset_foldl {f : Options → String → Options}
    (hf : ∀ o name, o.bubble ⊆ (f o name).bubble) (names : List String) (o : Options) :
    o.bubble ⊆ (names.foldl f o).bubble := by
  induction names generalizing o with
  | nil => exact List.Subset.refl _
  | cons name names ih => exact List.Subset.trans (hf o name) (ih (f o name))

theorem bubble_subset_options (f : Flags) : ({} : Options).bubble ⊆ f.options.bubble := by
  have hadd : ∀ o name, o.bubble ⊆ (Options.alsoBubble o name).bubble :=
    fun _ _ _ hx => Options.mem_addName.2 (.inl hx)
  have hkeep : ∀ o name, o.bubble ⊆ (Options.alsoUnwrap o name).bubble :=
    fun _ _ => List.Subset.refl _
  have hbubble : f.options.bubble = (f.unwrap.foldl Options.alsoUnwrap
      (f.bubble.foldl Options.alsoBubble { preserveEmpty := f.preserveEmpty })).bubble := by
    unfold Flags.options
    cases f.rootRuleName <;> cases f.dispatchStale <;> simp [Options.withRootRule]
  rw [hbubble]
  exact List.Subset.trans (bubble_subset_foldl hadd f.bubble { preserveEmpty := f.preserveEmpty })
    (bubble_subset_foldl hkeep f.unwrap _)

/-- The at-rules that hold rules bubble, whatever the flags are. -/
theorem bubbles_group (f : Flags) (g : Css.Group) : f.options.bubbles g.name = true := by
  have hdefault : g.name ∈ ({} : Options).bubble := by cases g <;> simp [Css.Group.name]
  exact List.any_eq_true.2
    ⟨g.name, bubble_subset_options f hdefault, Text.sameName_refl g.name⟩

end CommandLine

/-- Whether the node is a declaration or text kept as it is. -/
def Face.isText (f : Face) : Prop :=
  ∃ l : Leaf, f = .leaf l ∧ (l.kind = .declaration ∨ l.kind = .raw)

namespace Css

variable {o : Options} {f : Face}

theorem eq_property_of_mem {normal important : List Property} {t : Tree Unit}
    (h : t ∈ normal.map (Property.tree false) ++ important.map (Property.tree true)) :
    ∃ b p, t = Property.tree b p := by
  rcases List.mem_append.1 h with h | h <;> obtain ⟨p, -, rfl⟩ := List.mem_map.1 h <;>
    exact ⟨_, p, rfl⟩

mutual

/-- Where all the at-rules of a sheet bubble, its rules come to hold nothing but text. -/
theorem isText_of_mem_stays (ho : ∀ g : Group, o.bubbles g.name = true) (place : Tree.Place) :
    (r : Rule) → f ∈ stays o place r.tree → f.isText
  | .style _ _ _ rules, h => by
    rw [Rule.tree] at h
    obtain ⟨inner, -, hf⟩ | ⟨hnone, -⟩ := mem_stays_branch h
    · obtain ⟨t, ht, hf⟩ := mem_staysAll.1 hf
      rcases List.mem_append.1 ht with ht | ht
      · obtain ⟨b, p, rfl⟩ := eq_property_of_mem ht
        obtain ⟨-, rfl⟩ := mem_stays_single hf
        exact ⟨_, rfl, .inl rfl⟩
      · exact isText_of_mem_staysAll ho inner rules (mem_staysAll.2 ⟨t, ht, hf⟩)
    · rw [Place.enter_rule] at hnone
      cases hnone
  | .group g rules, h => by
    rw [Rule.tree] at h
    obtain ⟨inner, -, hf⟩ | ⟨hnone, -⟩ := mem_stays_branch h
    · exact isText_of_mem_staysAll ho inner rules hf
    · exact absurd hnone (Place.enter_of_bubbles (ho g) place)
  | .other _, h => by
    obtain ⟨-, rfl⟩ := mem_stays_single h
    exact ⟨_, rfl, .inr rfl⟩

theorem isText_of_mem_staysAll (ho : ∀ g : Group, o.bubbles g.name = true) (place : Tree.Place) :
    (rs : List Rule) → f ∈ staysAll o place (Rule.trees rs) → f.isText
  | [], h => absurd h (Multiset.notMem_zero f)
  | r :: rs, h => by
    rcases Multiset.mem_add.1 h with h | h
    · exact isText_of_mem_stays ho place r h
    · exact isText_of_mem_staysAll ho place rs h

end

mutual

theorem isRoot_of_mem_nodes : (r : Rule) → ∀ u ∈ r.tree.nodes, u.isRoot = false
  | .style _ _ _ rules, u, hu => by
    rcases List.mem_cons.1 hu with rfl | hu
    · rfl
    · obtain ⟨t, ht, hu⟩ := mem_nodesAll.1 hu
      rcases List.mem_append.1 ht with ht | ht
      · obtain ⟨b, p, rfl⟩ := eq_property_of_mem ht
        rw [List.mem_singleton.1 hu]
        rfl
      · exact isRoot_of_mem_nodesAll rules u (mem_nodesAll.2 ⟨t, ht, hu⟩)
  | .group _ rules, u, hu => by
    rcases List.mem_cons.1 hu with rfl | hu
    · rfl
    · exact isRoot_of_mem_nodesAll rules u hu
  | .other _, u, hu => by
    rw [List.mem_singleton.1 hu]
    rfl

theorem isRoot_of_mem_nodesAll : (rs : List Rule) → ∀ u ∈ nodesAll (Rule.trees rs), u.isRoot = false
  | [], _, hu => absurd hu List.not_mem_nil
  | r :: rs, u, hu =>
    (List.mem_append.1 hu).elim (isRoot_of_mem_nodes r u) (isRoot_of_mem_nodesAll rs u)

end

end Css

namespace Pass

open CommandLine

/-- A style sheet has a flat form whatever the flags are. Its rules hold declarations and kept text
only, so nothing is left to do for a second pass. -/
theorem flattenText_flat (f : Flags) (rules : List Css.Rule) :
    let d := Store.ofTrees (Css.Rule.trees rules)
    ∃ st s' ts', Runs (flatten f.options d.1 : Edit Unit Stats) d.2 s' st ∧
      s'.IsDocument d.1 ts' ∧
      (∀ t ∈ nodesAll ts', t.isRule = true → ∀ c ∈ t.children,
        ∃ l, c = .leaf c.label l ∧ (l.kind = .declaration ∨ l.kind = .raw)) ∧
      Runs (flatten f.options d.1 : Edit Unit Stats) s' s'
        ⟨(rulesAll ts').length, (rulesAll ts').length, 0⟩ ∧
      flattenDocument f.options d.1 d.2 = .ok (s'.print d.1) ∧
      ∀ (read : Css.Reader) source text, read source text = .ok rules →
        flattenRead read f.options source text = .ok (s'.print d.1) := by
  intro d
  obtain ⟨us, hus, hdoc⟩ := ofTrees_isDocument (Css.isRoot_of_mem_nodesAll rules)
  obtain ⟨s', ts', hrun, hb, hts⟩ := runs_flatten (ρ := Unit) f.options hdoc
  have hdoc' := hb.part.isDocument
  have htext : ∀ x ∈ held ts', x.isText := by
    intro x hx
    rw [held_after_pass hts, staysAll_mapAll, ← staysAll_mapAll Prod.fst, hus] at hx
    exact Css.isText_of_mem_staysAll (bubbles_group f) .outside rules hx
  have hsettled : Settled f.options ts' := by
    intro x hx
    obtain ⟨l, rfl, -⟩ := htext x hx
    rfl
  have hprint : flattenDocument f.options d.1 d.2 = .ok (s'.print d.1) := by
    obtain ⟨log', hok⟩ := hrun #[] ()
    rw [flattenDocument, hok]
  refine ⟨_, s', ts', hrun, hdoc', fun t ht hrule c hc => ?_, runs_flatten_settled hdoc' hsettled,
    hprint, fun read source text hread => ?_⟩
  · obtain ⟨l, hl, hkind⟩ := htext c.face (mem_held.2 ⟨t, ht, hrule, c, hc, rfl⟩)
    exact ⟨l, eq_leaf_of_face hl, hkind⟩
  · rw [flattenRead, hread]
    exact hprint

/-- A rule around an at-rule that bubbles and is the root rule as well. -/
def printSheet : List Css.Rule :=
  [.style ["a"] [] [] [.group (.media "print") [.style ["&"] [⟨"color", "red"⟩] [] []]]]

theorem flattenText_nested :
    let f : Flags := { rootRuleName := some "@media" }
    let d := Store.ofTrees (Css.Rule.trees printSheet)
    ∃ st s' ts', Runs (flatten f.options d.1 : Edit Unit Stats) d.2 s' st ∧ s'.IsDocument d.1 ts' ∧
      flattenRead (fun _ _ => .ok printSheet) f.options "a.css" "a{@media print{color:red}}" =
        .ok (s'.print d.1) := by
  obtain ⟨st, s', ts', hrun, hdoc, -, -, -, htext⟩ :=
    flattenText_flat { rootRuleName := some "@media" } printSheet
  exact ⟨st, s', ts', hrun, hdoc, htext _ _ _ rfl⟩

end Pass

end Unnest
