import Unnest.Selector.Members
import Unnest.Proofs.Selector.Scanning

/-! Lists of selectors, cut at their commas. A comma separates where nothing is open, so what stands
in front of it and what stands behind it are read apart, each from the start. Only the last member
of a list may leave something open; therefore any list is read back from the way its members are
written. -/

namespace Unnest.Selector

open Text

variable {s : Scan} {l m : List Char}

theorem Scan.eq_start_of_separates {c : Char} (h : s.separates c = true) : s = .start := by
  obtain ⟨_ | q, b, k⟩ := s
  · simp only [separates, counts, Bool.and_eq_true, beq_iff_eq] at h
    obtain ⟨⟨⟨⟨⟨⟨-, rfl⟩, -⟩, -⟩, -⟩, -⟩, rfl⟩ := h
    rfl
  · simp [separates, counts] at h

/-- A text without separators goes into the first piece. -/
theorem pieces_append (hl : meets Scan.separates s l = false) (m : List Char) :
    pieces s (l ++ m) = (l ++ (pieces (s.after l) m).1, (pieces (s.after l) m).2) := by
  induction l generalizing s with
  | nil => rfl
  | cons c l ih =>
    obtain ⟨hc, hl⟩ := Bool.or_eq_false_iff.1 hl
    simp only [List.cons_append, pieces, hc, Bool.false_eq_true, if_false, ih hl, Scan.after_cons]

/-- Where nothing is open a comma ends a piece. -/
theorem allPieces_append_comma (h : s.after l = .start) (m : List Char) :
    allPieces s (l ++ ',' :: m) = allPieces s l ++ allPieces .start m := by
  induction l generalizing s with
  | nil =>
    obtain rfl : s = .start := h
    rfl
  | cons c l ih =>
    have hpieces := ih (s := s.next c) h
    simp only [allPieces, List.cons_append, List.cons.injEq] at hpieces
    simp only [allPieces, List.cons_append, pieces, hpieces.1, hpieces.2]
    split <;> rfl

/-- Only the last piece may end with something open, and no piece has a separator in it. -/
theorem pieces_closed (s : Scan) (l : List Char) :
    meets Scan.separates s (pieces s l).1 = false ∧
    ((pieces s l).2 ≠ [] → s.after (pieces s l).1 = .start) ∧
    (∀ q ∈ (pieces s l).2, meets Scan.separates .start q = false) ∧
    (pieces s l).2.Pairwise fun q _ => Scan.start.after q = .start := by
  induction l generalizing s with
  | nil => simp [pieces, meets]
  | cons c l ih =>
    obtain ⟨hfirst, hends, hrest, hclosed⟩ := ih (s.next c)
    rw [pieces]
    cases hsep : s.separates c with
    | true =>
      obtain rfl := Scan.eq_start_of_separates hsep
      obtain rfl := eq_comma_of_separates hsep
      refine ⟨rfl, fun _ => rfl, List.forall_mem_cons.2 ⟨hfirst, hrest⟩, ?_⟩
      exact List.pairwise_cons.2 ⟨fun q hq => hends (List.ne_nil_of_mem hq), hclosed⟩
    | false =>
      exact ⟨Bool.or_eq_false_iff.2 ⟨hsep, hfirst⟩, hends, hrest, hclosed⟩

/-- What a list of selectors may have as a member. -/
structure Single (l : List Char) : Prop where
  nonempty : l ≠ []
  trimmed : Trimmed l
  /-- No comma separates it into two. -/
  unseparated : meets Scan.separates .start l = false

theorem membersOf_append_comma (h : Scan.start.after l = .start) (m : List Char) :
    membersOf (l ++ ',' :: m) = membersOf l ++ membersOf m := by
  rw [membersOf, allPieces_append_comma h, List.map_append, List.filter_append]
  rfl

/-- A blank in front of a list does not matter. -/
theorem membersOf_blank {c : Char} (hc : isBlank c = true) (l : List Char) :
    membersOf (c :: l) = membersOf l := by
  have hnext : Scan.start.next c = .start := Scan.next_blank Scan.quoted_start hc
  have hsep : Scan.start.separates c = false := by
    rw [Bool.eq_false_iff]
    intro h
    rw [eq_comma_of_separates h] at hc
    exact absurd hc (by decide)
  simp only [membersOf, allPieces, pieces, hnext, hsep, Bool.false_eq_true, if_false,
    List.map_cons, trimChars_cons hc]

/-- Commas with blanks behind them part a list into lists if nothing is open in front of them. -/
theorem membersOf_intercalate {blanks : List Char} (hblanks : ∀ c ∈ blanks, isBlank c = true)
    {r : List (List Char)} (hr : r.Pairwise fun l _ => Scan.start.after l = .start) :
    membersOf ((',' :: blanks).intercalate r) = r.flatMap membersOf := by
  have hskip : ∀ m, membersOf (blanks ++ m) = membersOf m := by
    intro m
    induction blanks with
    | nil => rfl
    | cons c blanks ih =>
      obtain ⟨hc, hblanks⟩ := List.forall_mem_cons.1 hblanks
      rw [List.cons_append, membersOf_blank hc, ih hblanks]
  induction r with
  | nil => rfl
  | cons l r ih =>
    obtain ⟨hl, hr⟩ := List.pairwise_cons.1 hr
    cases r with
    | nil => simp
    | cons m r =>
      rw [List.intercalate_cons_cons, List.append_assoc, List.cons_append,
        membersOf_append_comma (hl m List.mem_cons_self), hskip, ih hr]
      rfl

/-- A text without separators is one member, unless it is blank. -/
theorem membersOf_of_unseparated (hl : meets Scan.separates .start l = false)
    (hne : trimChars l ≠ []) : membersOf l = [trimChars l] := by
  have hpieces := pieces_append hl []
  rw [List.append_nil, pieces, List.append_nil] at hpieces
  simp [membersOf, allPieces, hpieces, hne]

theorem membersOf_single (hl : Single l) : membersOf l = [l] := by
  have htrim := trimChars_eq_self hl.trimmed
  rw [membersOf_of_unseparated hl.unseparated (htrim.symm ▸ hl.nonempty), htrim]

theorem single_of_mem {x : List Char} (hx : x ∈ membersOf l) : Single x := by
  obtain ⟨hfirst, -, hrest, -⟩ := pieces_closed .start l
  simp only [membersOf, List.mem_filter, List.mem_map] at hx
  obtain ⟨⟨q, hq, rfl⟩, hne⟩ := hx
  have hsep : meets Scan.separates .start q = false := by
    rcases List.mem_cons.1 hq with rfl | hq
    · exact hfirst
    · exact hrest q hq
  exact ⟨by simpa using hne, trimmed_trimChars q, (scan_trimChars Scan.separates q).2 hsep⟩

/-- Only the last member may end with something open. -/
theorem pairwise_membersOf (l : List Char) :
    (membersOf l).Pairwise fun x _ => Scan.start.after x = .start := by
  obtain ⟨-, hends, -, hclosed⟩ := pieces_closed .start l
  have hpieces : (allPieces .start l).Pairwise fun q _ => Scan.start.after q = .start :=
    List.pairwise_cons.2 ⟨fun q hq => hends (List.ne_nil_of_mem hq), hclosed⟩
  apply List.Pairwise.filter
  rw [List.pairwise_map]
  apply hpieces.imp
  intro p _ hp
  rw [(scan_trimChars Scan.separates p).1, hp]

/-- A list is read back if each of its members is one selector and only the last one may leave
something open. -/
theorem members_listText_of_single {r : List String} (hsingle : ∀ x ∈ r, Single x.toList)
    (hclosed : r.Pairwise fun x _ => Scan.start.after x.toList = .start) :
    members (listText r) = r := by
  have hcomma : ", ".toList = [',', ' '] := rfl
  have hblank : ∀ c ∈ [' '], isBlank c = true := List.forall_mem_singleton.2 rfl
  have hchars : membersOf (listText r).toList = r.map String.toList := by
    rw [listText, String.toList_intercalate, hcomma,
      membersOf_intercalate hblank (List.pairwise_map.2 hclosed), List.flatMap_map]
    calc r.flatMap (fun x => membersOf x.toList)
      _ = r.flatMap (fun x => [x.toList]) :=
        List.flatMap_congr fun x hx => membersOf_single (hsingle x hx)
      _ = r.map String.toList := List.flatMap_pure_eq_map _ _
  rw [members, hchars, List.map_map]
  simp [Function.comp_def]

/-- Lists on either side of a comma are read apart if nothing is open in front of it. A member is a
list of itself alone, and every list, whatever it leaves open, is read back from its members. -/
theorem members_listText_members (list : String) :
    (∀ rest : String, Scan.start.after list.toList = .start →
      members (list ++ "," ++ rest) = members list ++ members rest) ∧
    (∀ x ∈ members list, x ≠ "" ∧ trim x = x ∧ members x = [x]) ∧
    members (listText (members list)) = members list := by
  have hmem : ∀ x ∈ members list, Single x.toList := by
    intro x hx
    obtain ⟨y, hy, rfl⟩ := List.mem_map.1 hx
    rw [String.toList_ofList]
    exact single_of_mem hy
  refine ⟨fun rest h => ?_, fun x hx => ⟨?_, ?_, ?_⟩, members_listText_of_single hmem ?_⟩
  · have htext : (list ++ "," ++ rest).toList = list.toList ++ ',' :: rest.toList := by simp
    rw [members, htext, membersOf_append_comma h, List.map_append]
    rfl
  · simpa using (hmem x hx).nonempty
  · rw [trim, trimChars_eq_self (hmem x hx).trimmed, String.ofList_toList]
  · simp [members, membersOf_single (hmem x hx)]
  · rw [members, List.pairwise_map]
    simpa using pairwise_membersOf list.toList

/-- The first list has commas that do not separate, a blank member and closers that close nothing;
the second one ends in a string. -/
theorem members_listText_open :
    let list := "a:is(b, c)[d=','] , ,e)]"
    let rest := "\u00a0f , [g=',"
    Scan.start.after list.toList = .start ∧
      members (list ++ "," ++ rest) =
        ["a:is(b, c)[d=',']", "e)]"] ++ ["f", "[g=',"] ∧
      members (listText (members (list ++ "," ++ rest))) = members (list ++ "," ++ rest) := by
  intro list rest
  have hclosed : Scan.start.after list.toList = .start := by decide +kernel
  have hlist : members list = ["a:is(b, c)[d=',']", "e)]"] := by decide +kernel
  have hrest : members rest = ["f", "[g=',"] := by decide +kernel
  have happend := (members_listText_members list).1 rest hclosed
  rw [hlist, hrest] at happend
  exact ⟨hclosed, happend, (members_listText_members (list ++ "," ++ rest)).2.2⟩

end Unnest.Selector
