import Unnest.Proofs.Selector.Clean

/-! Nesting in steps. A list below a list below a list can be resolved from the outside or from the
inside. A parent that is put into a child brings its own ampersands along; they count there as they
did in the parent, because the parent is put in outside strings and brackets and leaves none open.
So both ways come to the same, unless a child names a parent that does not name its own: then the
outer parent comes with each mention on one way, and once and in front on the other. -/

namespace Unnest.Selector

open Text

variable {s t : Scan} {g p c : List Char}

theorem refers_append (s : Scan) (l m : List Char) :
    refers s (l ++ m) = (refers s l || refers (s.after l) m) := by
  simp only [refers_eq_meets, meets_append]

theorem fill_append (p : List Char) (s : Scan) (l m : List Char) :
    fill p s (l ++ m) = fill p s l ++ fill p (s.after l) m := by
  induction l generalizing s with
  | nil => rfl
  | cons c l ih =>
    rw [List.cons_append, fill, fill, ih, Scan.after_cons, List.append_assoc]

/-! Parentheses do not matter to what an ampersand stands for. -/

theorem SameLevel.symm (h : SameLevel s t) : SameLevel t s := congruence_sameLevel.equivalence.symm h

theorem SameLevel.trans {u : Scan} (h : SameLevel s t) (h' : SameLevel t u) : SameLevel s u :=
  congruence_sameLevel.equivalence.trans h h'

theorem SameLevel.after (h : SameLevel s t) (l : List Char) : SameLevel (s.after l) (t.after l) :=
  congruence_sameLevel.after h l

theorem SameLevel.refers_eq (h : SameLevel s t) (l : List Char) : refers s l = refers t l := by
  simp only [refers_eq_meets, congruence_sameLevel.meets_eq h]

theorem SameLevel.fill_eq (h : SameLevel s t) (p l : List Char) : fill p s l = fill p t l := by
  induction l generalizing s t with
  | nil => rfl
  | cons c l ih => rw [fill, fill, h.refersHere_eq, ih (h.next c)]

/-- Where an ampersand counts nothing is open but parentheses. -/
theorem Scan.sameLevel_start (h : s.refersHere '&' = true) : SameLevel s .start :=
  Scan.refersHere_ampersand.1 h

/-! A child filled with a parent that leaves no string or bracket open, read by the scan `t` while
`s` reads the child alone. -/

/-- After the parent the scan goes on where it was. -/
theorem SameLevel.after_parent (hp : SameLevel (Scan.start.after p) .start) (hst : SameLevel s t)
    (h : s.refersHere '&' = true) : SameLevel s (t.after p) := by
  have hs := Scan.sameLevel_start h
  have ht : SameLevel (t.after p) (Scan.start.after p) := (hst.symm.trans hs).after p
  exact hs.trans (ht.trans hp).symm

/-- The filled child names a parent where the child does, if its own parent does so. -/
theorem refers_fill (hp : SameLevel (Scan.start.after p) .start) (hst : SameLevel s t) :
    refers t (fill p s c) = (refers s c && refers .start p) := by
  induction c generalizing s t with
  | nil => rfl
  | cons d c ih =>
    rw [fill, refers]
    cases hhere : s.refersHere d with
    | true =>
      obtain rfl := Scan.eq_ampersand hhere
      have ht : SameLevel t .start := hst.symm.trans (Scan.sameLevel_start hhere)
      rw [if_pos rfl, refers_append, Scan.next_ampersand hhere, ih (hp.after_parent hst hhere),
        ht.refers_eq]
      cases refers .start p <;> simp
    | false =>
      have hnot : t.refersHere d = false := (hst.refersHere_eq d).symm.trans hhere
      rw [if_neg Bool.false_ne_true, List.singleton_append, refers, hnot, ih (hst.next d),
        Bool.false_or, Bool.false_or]

/-- Filling a filled child is filling it with the filled parent. -/
theorem fill_fill (g : List Char) (hp : SameLevel (Scan.start.after p) .start)
    (hst : SameLevel s t) : fill g t (fill p s c) = fill (fill g .start p) s c := by
  induction c generalizing s t with
  | nil => rfl
  | cons d c ih =>
    rw [fill, fill]
    cases hhere : s.refersHere d with
    | true =>
      obtain rfl := Scan.eq_ampersand hhere
      have ht : SameLevel t .start := hst.symm.trans (Scan.sameLevel_start hhere)
      rw [if_pos rfl, if_pos rfl, fill_append, Scan.next_ampersand hhere,
        ih (hp.after_parent hst hhere), ht.fill_eq]
    | false =>
      have hnot : t.refersHere d = false := (hst.refersHere_eq d).symm.trans hhere
      rw [if_neg Bool.false_ne_true, if_neg Bool.false_ne_true, List.singleton_append, fill, hnot,
        if_neg Bool.false_ne_true, ih (hst.next d)]

/-- One selector below one parent below another. -/
theorem nestChars_nestChars (g : List Char) (hp : SameLevel (Scan.start.after p) .start)
    (h : refers .start p = true ∨ refers .start c = false) :
    nestChars (nestChars g p) c = nestChars g (nestChars p c) := by
  have hstart : SameLevel .start .start := congruence_sameLevel.equivalence.refl _
  cases hc : refers .start c with
  | true =>
    have hpr : refers .start p = true := h.resolve_right (by simp [hc])
    have hboth : refers .start (fill p .start c) = true := by
      rw [refers_fill hp hstart, hc, hpr]
      rfl
    simp only [nestChars, hc, hpr, hboth, if_true]
    exact (fill_fill g hp hstart).symm
  | false =>
    -- behind the parent and a blank the child is read as from the start
    have hback : SameLevel ((Scan.start.after p).next ' ') .start := hp.next ' '
    have hrest : refers (Scan.start.after p) (' ' :: c) = false := by
      rw [refers, hp.refersHere_eq, hback.refers_eq, hc]
      decide
    have hnames : refers .start (p ++ ' ' :: c) = refers .start p := by
      rw [refers_append, hrest, Bool.or_false]
    simp only [nestChars, hc, hnames, Bool.false_eq_true, if_false]
    cases refers .start p with
    | true => simp only [if_true, fill_append, fill_eq_self g _ _ hrest]
    | false => simp

/-! Selectors as texts. -/

theorem nestOne_of_blank {child : String} (parent : String) (h : trimChars child.toList = []) :
    nestOne parent child = none := by
  have hempty : trim child = "" := by rw [trim, h]
  simp [nestOne, hempty]

theorem nestOne_of_ne {child : String} (parent : String) (h : trimChars child.toList ≠ []) :
    nestOne parent child =
      some (String.ofList (nestChars parent.toList (trimChars child.toList))) := by
  cases hx : nestOne parent child with
  | some x =>
    obtain ⟨-, hchars⟩ := nestOne_eq_some hx
    rw [← hchars, String.ofList_toList]
  | none =>
    have hempty : (trim child).isEmpty = false := by
      rw [Bool.eq_false_iff]
      intro he
      apply h
      rw [← toList_trim, String.isEmpty_iff.1 he]
      rfl
    simp [nestOne, hempty] at hx

/-- Either parent may be put in first. -/
theorem nestOne_nestOne {parent child x : String} (outer : String) (hne : parent ≠ "")
    (htrim : trim parent = parent) (hshut : Shut parent)
    (h : refers .start parent.toList = true ∨ refers .start (trim child).toList = false)
    (hx : nestOne outer parent = some x) :
    nestOne x child = (nestOne parent child).bind (nestOne outer) := by
  have htrimmed : Trimmed parent.toList := by
    rw [← trimChars_eq_self_iff, ← toList_trim, htrim]
  have hpne : parent.toList ≠ [] := by simpa using hne
  obtain ⟨-, hxchars⟩ := nestOne_eq_some hx
  rw [trimChars_eq_self htrimmed] at hxchars
  by_cases hblank : trimChars child.toList = []
  · rw [nestOne_of_blank x hblank, nestOne_of_blank parent hblank]
    rfl
  · have hmiddle := trimmed_nestChars htrimmed hpne (trimmed_trimChars child.toList) hblank
    have hmne := nestChars_ne_nil hpne hblank
    rw [toList_trim] at h
    rw [nestOne_of_ne x hblank, nestOne_of_ne parent hblank, Option.bind_some, nestOne_of_ne outer,
      String.toList_ofList, trimChars_eq_self hmiddle, hxchars, nestChars_nestChars _ hshut h]
    rwa [String.toList_ofList, trimChars_eq_self hmiddle]

/-- Nesting is associative, in order and with repetitions, whatever the outer parents and the
children are, if no parent in the middle ends in a string or bracket and each of them names its own
parent or is not named by the children. -/
theorem nest_assoc {outer middle children : List String}
    (hmiddle : ∀ p ∈ middle, p ≠ "" ∧ trim p = p ∧ Shut p)
    (h : ∀ p ∈ middle, ∀ c ∈ children,
      refers .start p.toList = true ∨ refers .start (trim c).toList = false) :
    nest (nest outer middle) children = nest outer (nest middle children) := by
  simp only [nest, List.flatMap_assoc, List.filterMap_flatMap]
  apply List.flatMap_congr
  intro g _
  induction middle with
  | nil => simp
  | cons p middle ih =>
    obtain ⟨⟨hne, htrim, hshut⟩, hmiddle⟩ := List.forall_mem_cons.1 hmiddle
    obtain ⟨hp, h⟩ := List.forall_mem_cons.1 h
    have hpne : trimChars p.toList ≠ [] := by
      rw [← toList_trim, htrim]
      simpa using hne
    obtain ⟨x, hx⟩ : ∃ x, nestOne g p = some x := ⟨_, nestOne_of_ne g hpne⟩
    have hfirst : children.filterMap (nestOne x) =
        children.filterMap fun c => (nestOne p c).bind (nestOne g) := by
      apply List.filterMap_congr
      intro c hc
      exact nestOne_nestOne g hne htrim hshut (hp c hc) hx
    rw [List.filterMap_cons_some hx, List.flatMap_cons, List.flatMap_cons, ih hmiddle h, hfirst,
      List.filterMap_filterMap]

/-- The children are a text that ends in a bracket, one whose only ampersand is quoted, a blank one
and one that names its parent twice. -/
theorem nest_assoc_amid :
    let outer := ["a", "b"]
    let middle := ["&.x", ":is(y, & > z)"]
    let children := ["[k", "[k='&'] ", " ", "& &"]
    ((∀ p ∈ middle, p ≠ "" ∧ trim p = p ∧ Shut p) ∧
      ∀ p ∈ middle, ∀ c ∈ children,
        refers .start p.toList = true ∨ refers .start (trim c).toList = false) ∧
    nest (nest outer middle) children = nest outer (nest middle children) ∧
    nest outer (nest middle children) =
      ["a.x [k", "a.x [k='&']", "a.x a.x", ":is(y, a > z) [k", ":is(y, a > z) [k='&']",
        ":is(y, a > z) :is(y, a > z)", "b.x [k", "b.x [k='&']", "b.x b.x", ":is(y, b > z) [k",
        ":is(y, b > z) [k='&']", ":is(y, b > z) :is(y, b > z)"] := by
  intro outer middle children
  have hmiddle : ∀ p ∈ middle, p ≠ "" ∧ trim p = p ∧ Shut p := by decide +kernel
  have h : ∀ p ∈ middle, ∀ c ∈ children,
      refers .start p.toList = true ∨ refers .start (trim c).toList = false := by decide +kernel
  exact ⟨⟨hmiddle, h⟩, nest_assoc hmiddle h, by decide +kernel⟩

example : nest (nest ["g"] ["b"]) ["& &"] = ["g b g b"] ∧
    nest ["g"] (nest ["b"] ["& &"]) = ["g b b"] := by
  decide +kernel

end Unnest.Selector
