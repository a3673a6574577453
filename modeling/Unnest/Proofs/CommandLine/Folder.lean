import Mathlib.Logic.Basic
import Mathlib.Tactic.SplitIfs
import Unnest.CommandLine.Folder
import Unnest.Proofs.CommandLine.Files

/-! A folder keeps the promises of a file system, with and without a limit on what its files take. A
file is only made where its folder is, so no name changes its meaning but the names of that file. -/

namespace Unnest.CommandLine

namespace Folder

variable {d d' : Folder} {p q : Path} {bytes : ByteArray}

theorem lookup_replace_self {files : List (Path × ByteArray)} (bytes : ByteArray)
    (h : (files.lookup p).isSome = true) :
    (files.map fun f => if f.1 = p then (p, bytes) else f).lookup p = some bytes := by
  induction files with
  | nil => cases h
  | cons f files ih =>
    rw [List.map_cons]
    by_cases hf : f.1 = p
    · rw [if_pos hf, List.lookup_cons_self]
    · have hne : (p == f.1) = false := beq_eq_false_iff_ne.2 (Ne.symm hf)
      rw [List.lookup_cons, hne] at h
      rw [if_neg hf, List.lookup_cons, hne]
      exact ih h

theorem lookup_replace_of_ne (files : List (Path × ByteArray)) (bytes : ByteArray)
    (hne : q ≠ p) :
    (files.map fun f => if f.1 = p then (p, bytes) else f).lookup q = files.lookup q := by
  induction files with
  | nil => rfl
  | cons f files ih =>
    rw [List.map_cons, List.lookup_cons, List.lookup_cons, ih]
    by_cases hf : f.1 = p
    · rw [if_pos hf, hf, beq_eq_false_iff_ne.2 hne]
    · rw [if_neg hf]

theorem content?_put_self (d : Folder) (p : Path) (bytes : ByteArray) :
    (d.put p bytes).content? p = some bytes := by
  unfold put
  split_ifs with hsome
  · exact lookup_replace_self bytes hsome
  · have hnone : d.files.lookup p = none := Option.not_isSome_iff_eq_none.1 hsome
    rw [content?, List.lookup_append, hnone, List.lookup_cons_self]
    rfl

theorem content?_put_of_ne (d : Folder) (bytes : ByteArray) (hne : q ≠ p) :
    (d.put p bytes).content? q = d.content? q := by
  unfold put
  split_ifs with hsome
  · exact lookup_replace_of_ne _ bytes hne
  · have hrest : List.lookup q [(p, bytes)] = none := by
      rw [List.lookup_cons, beq_eq_false_iff_ne.2 hne]
      rfl
    rw [content?, content?, List.lookup_append, hrest, Option.or_none]

theorem isSome_content?_put (d : Folder) (p q : Path) (bytes : ByteArray) :
    ((d.put p bytes).content? q).isSome = true ↔ q = p ∨ (d.content? q).isSome = true := by
  by_cases hq : q = p
  · subst hq
    simp [content?_put_self]
  · simp [content?_put_of_ne d bytes hq, hq]

theorem isFolder_iff : d.isFolder p = true ↔
    p = [] ∨ ∃ f ∈ d.files, p <+: f.1 ∧ p.length < f.1.length := by
  simp [isFolder, List.isPrefixOf_iff_prefix]

/-- What a folder lies in is a folder. -/
theorem isFolder_of_isPrefix (h : d.isFolder p = true) (hq : q <+: p) : d.isFolder q = true := by
  rw [isFolder_iff] at h ⊢
  rcases h with rfl | ⟨f, hf, hbelow, hlength⟩
  · exact .inl (List.prefix_nil.1 hq)
  · exact .inr ⟨f, hf, hq.trans hbelow, Nat.lt_of_le_of_lt hq.length_le hlength⟩

/-- A file that is there, or whose folder is there, makes no new folders. -/
theorem isFolder_put (h : (d.content? p).isSome = true ∨ d.isFolder p.dropLast = true)
    (bytes : ByteArray) (q : Path) : (d.put p bytes).isFolder q = d.isFolder q := by
  rw [Bool.eq_iff_iff, isFolder_iff, put]
  split_ifs with hsome
  · -- the paths are the same
    have hpath : ∀ f : Path × ByteArray, (if f.1 = p then (p, bytes) else f).1 = f.1 := by
      intro f
      split_ifs with hf
      · exact hf.symm
      · rfl
    simp only [List.mem_map, exists_exists_and_eq_and, hpath, isFolder_iff]
  · have hparent := h.resolve_left hsome
    simp only [List.mem_append, List.mem_singleton, or_and_right, exists_or, exists_eq_left]
    rw [← or_assoc, ← isFolder_iff]
    refine or_iff_left_of_imp ?_
    rintro ⟨hbelow, hlength⟩
    refine isFolder_of_isPrefix hparent
      (List.prefix_of_prefix_length_le hbelow (List.dropLast_prefix p) ?_)
    rw [List.length_dropLast]
    omega

/-! Names. Where they lead depends on what is a folder. -/

theorem isFolder_of_step {level : String} (h : d.step p level = .ok q) :
    d.isFolder q.dropLast = true := by
  unfold step at h
  split_ifs at h with hp hhere hup htop
  all_goals
    obtain rfl := Except.ok.inj h
    rw [Bool.not_eq_false] at hp
  · exact isFolder_of_isPrefix hp (List.dropLast_prefix p)
  · exact isFolder_of_isPrefix hp ((List.dropLast_prefix _).trans (List.dropLast_prefix p))
  · rwa [List.dropLast_concat]

theorem foldlM_step_cons_iff {level : String} {levels : List String} :
    (level :: levels).foldlM d.step p = .ok q ↔
      ∃ p', d.step p level = .ok p' ∧ levels.foldlM d.step p' = .ok q := by
  rw [List.foldlM_cons]
  cases d.step p level <;> simp [bind, Except.bind]

theorem isFolder_of_foldlM_step {levels : List String} (hp : d.isFolder p.dropLast = true)
    (h : levels.foldlM d.step p = .ok q) : d.isFolder q.dropLast = true := by
  induction levels generalizing p with
  | nil =>
    obtain rfl := Except.ok.inj h
    exact hp
  | cons level levels ih =>
    obtain ⟨p', hstep, hrest⟩ := foldlM_step_cons_iff.1 h
    exact ih (isFolder_of_step hstep) hrest

theorem step_congr (hd : ∀ q, d'.isFolder q = d.isFolder q) {level : String}
    (h : d.step p level = .ok q) : d'.step p level = .ok q := by
  unfold step at h ⊢
  rw [hd]
  split_ifs at h ⊢ <;> exact h

theorem foldlM_step_congr (hd : ∀ q, d'.isFolder q = d.isFolder q) {levels : List String}
    (h : levels.foldlM d.step p = .ok q) : levels.foldlM d'.step p = .ok q := by
  induction levels generalizing p with
  | nil => exact h
  | cons level levels ih =>
    obtain ⟨p', hstep, hrest⟩ := foldlM_step_cons_iff.1 h
    exact foldlM_step_cons_iff.2 ⟨p', step_congr hd hstep, ih hrest⟩

theorem locate_eq_ok_iff {name : String} {r : Path × Bool} : d.locate name = .ok r ↔
    (Path.ofString name).head? ≠ some "" ∧
      ((Path.ofString name).filter (· != "")).foldlM d.step [] = .ok r.1 ∧
      ((Path.ofString name).getLast? == some "") = r.2 := by
  unfold locate
  dsimp only
  split_ifs with houtside
  · simp [houtside]
  · cases hp : ((Path.ofString name).filter (· != "")).foldlM d.step [] with
    | error fault => simp [bind, Except.bind]
    | ok p => simp [bind, Except.bind, pure, Except.pure, Prod.ext_iff, houtside]

theorem locate_congr (hd : ∀ q, d'.isFolder q = d.isFolder q) {name : String} {r : Path × Bool}
    (h : d.locate name = .ok r) : d'.locate name = .ok r := by
  obtain ⟨hhead, hfold, hlast⟩ := locate_eq_ok_iff.1 h
  exact locate_eq_ok_iff.2 ⟨hhead, foldlM_step_congr hd hfold, hlast⟩

/-- The place of the file that a name leads to. -/
def file? (d : Folder) (name : String) : Option Path :=
  match d.locate name with
  | .ok (p, false) => if d.isFolder p = false ∧ (d.content? p).isSome = true then some p else none
  | _ => none

theorem file?_eq_some_iff {name : String} : d.file? name = some p ↔
    d.locate name = .ok (p, false) ∧ d.isFolder p = false ∧ (d.content? p).isSome = true := by
  unfold file?
  rcases d.locate name with fault | ⟨q, _ | _⟩
  · simp
  · dsimp only
    split_ifs with hq
    · constructor
      · rintro ⟨⟩
        exact ⟨rfl, hq⟩
      · rintro ⟨⟨⟩, -⟩
        rfl
    · refine iff_of_false (fun h => by cases h) ?_
      rintro ⟨⟨⟩, hp⟩
      exact hq hp
  · simp

theorem read_eq_ok_iff {name : String} : d.read name = .ok bytes ↔
    ∃ p, d.file? name = some p ∧ d.content? p = some bytes := by
  unfold read file?
  rcases d.locate name with fault | ⟨p, closed⟩
  · simp [bind, Except.bind]
  · cases hp : d.isFolder p with
    | true => cases closed <;> simp [bind, Except.bind, hp]
    | false => cases hc : d.content? p <;> cases closed <;> simp [bind, Except.bind, hp, hc]

theorem placeFor_eq_ok_iff {name : String} : d.placeFor name = .ok p ↔
    d.locate name = .ok (p, false) ∧ d.isFolder p = false := by
  unfold placeFor
  rcases d.locate name with fault | ⟨q, _ | _⟩
  · simp [bind, Except.bind]
  · simp only [bind, Except.bind, Bool.false_eq_true, false_or]
    split_ifs with hq
    · refine iff_of_false (fun h => by cases h) ?_
      rintro ⟨⟨⟩, hp⟩
      rw [hq] at hp
      cases hp
    · constructor
      · rintro ⟨⟩
        exact ⟨rfl, Bool.eq_false_iff.2 hq⟩
      · rintro ⟨⟨⟩, -⟩
        rfl
  · simp [bind, Except.bind]

/-- The folder of a file that a name leads to is there. -/
theorem isFolder_of_locate {name : String} {closed : Bool} (h : d.locate name = .ok (p, closed)) :
    d.isFolder p.dropLast = true := by
  obtain ⟨-, hfold, -⟩ := locate_eq_ok_iff.1 h
  exact isFolder_of_foldlM_step rfl hfold

def view : FileView Folder Path := ⟨file?, content?⟩

/-- Bytes put into a file change no other file, and name no other file either. -/
theorem sameBut_put (h : (d.content? p).isSome = true ∨ d.isFolder p.dropLast = true)
    (bytes : ByteArray) : view.SameBut p d (d.put p bytes) := by
  have hfolders := isFolder_put h bytes
  refine ⟨fun name => ?_, fun q hq => content?_put_of_ne d bytes hq⟩
  change (d.put p bytes).file? name = d.file? name ∨
    (d.file? name = none ∧ (d.put p bytes).file? name = some p)
  cases hold : d.file? name with
  | some q =>
    obtain ⟨hlocate, hq, hsome⟩ := file?_eq_some_iff.1 hold
    refine .inl (file?_eq_some_iff.2 ⟨locate_congr hfolders hlocate, by rw [hfolders, hq], ?_⟩)
    exact (isSome_content?_put d p q bytes).2 (.inr hsome)
  | none =>
    cases hnew : (d.put p bytes).file? name with
    | none => exact .inl rfl
    | some q =>
      obtain ⟨hlocate, hq, hsome⟩ := file?_eq_some_iff.1 hnew
      rcases (isSome_content?_put d p q bytes).1 hsome with rfl | hsome
      · exact .inr ⟨rfl, rfl⟩
      · -- a name that leads to another file has led there before
        have hback : d.file? name = some q := file?_eq_some_iff.2
          ⟨locate_congr (fun q => (hfolders q).symm) hlocate, by rw [← hfolders, hq], hsome⟩
        rw [hold] at hback
        cases hback

theorem create_eq (limit : Option Nat) (name : String) (d : Folder) :
    (system limit).create name d =
      match d.placeFor name with
      | .error fault => (.error fault, d)
      | .ok p => (.ok p, d.put p .empty) := by
  simp only [system, bind, StateT.bind, get, getThe, MonadStateOf.get, StateT.get, pure]
  cases d.placeFor name <;> rfl

theorem writeAll_eq (limit : Option Nat) {before : ByteArray} (h : d.content? p = some before)
    (bytes : ByteArray) :
    let room := (limit.map (· - before.size)).getD bytes.size
    (system limit).writeAll p bytes d =
      if bytes.size ≤ room then (.ok (), d.put p (before ++ bytes))
      else (.error (.other "File too large (os error 27)"),
        d.put p (before ++ bytes.extract 0 room)) := by
  simp only [system, bind, StateT.bind, get, getThe, MonadStateOf.get, StateT.get, pure, h]
  split_ifs <;> rfl

theorem writeAll_of_none (limit : Option Nat) (h : d.content? p = none) (bytes : ByteArray) :
    (system limit).writeAll p bytes d = (.error .missing, d) := by
  simp only [system, bind, StateT.bind, get, getThe, MonadStateOf.get, StateT.get, pure, h]
  rfl

theorem system_behaves (limit : Option Nat) : (system limit).Behaves view := by
  constructor
  case readAll_same => exact fun name d => ⟨rfl, rfl⟩
  case readAll_ok => exact fun name d bytes h => read_eq_ok_iff.1 h
  case create_error =>
    intro name d d' fault h
    rw [create_eq] at h
    split at h
    · obtain ⟨-, rfl⟩ := Prod.mk.inj h
      exact ⟨rfl, rfl⟩
    · cases h
  case create_ok =>
    intro name d d' p h
    rw [create_eq] at h
    split at h
    · cases h
    · next q hplace =>
      obtain ⟨hq, rfl⟩ := Prod.mk.inj h
      obtain rfl := Except.ok.inj hq
      obtain ⟨hlocate, hfile⟩ := placeFor_eq_ok_iff.1 hplace
      have hparent := isFolder_of_locate hlocate
      have hfolders := isFolder_put (.inr hparent) .empty
      refine ⟨sameBut_put (.inr hparent) .empty, ?_, content?_put_self d q .empty⟩
      exact file?_eq_some_iff.2 ⟨locate_congr hfolders hlocate, by rw [hfolders, hfile],
        (isSome_content?_put d q q .empty).2 (.inl rfl)⟩
  case writeAll_sameBut =>
    intro p bytes d
    cases hc : d.content? p with
    | none =>
      rw [writeAll_of_none limit hc]
      exact ⟨fun _ => .inl rfl, fun _ _ => rfl⟩
    | some before =>
      have hsome : (d.content? p).isSome = true := by rw [hc]; rfl
      rw [writeAll_eq limit hc]
      split_ifs
      · exact sameBut_put (.inl hsome) _
      · exact sameBut_put (.inl hsome) _
  case writeAll_ok =>
    intro p bytes d d' before h hbefore
    rw [writeAll_eq limit hbefore] at h
    split_ifs at h
    · obtain ⟨-, rfl⟩ := Prod.mk.inj h
      exact content?_put_self d p (before ++ bytes)
    · cases h

/-- Without a limit a file takes any text. -/
theorem not_breaksOff {name text : String} : ¬ (system none).BreaksOff name text d d' := by
  rintro ⟨p, opened, fault, hcreate, hwrite⟩
  obtain ⟨-, -, hempty⟩ := (system_behaves none).create_ok name d opened p hcreate
  rw [writeAll_eq none hempty, Option.map_none, Option.getD_none, if_pos (Nat.le_refl _)] at hwrite
  cases hwrite

/-- A file of two bytes at most has lost what it held and taken two of three. -/
example : (system (some 2)).BreaksOff "b" "xyz" ⟨[(["b"], "a".toUTF8)]⟩
    ⟨[(["b"], "xy".toUTF8)]⟩ :=
  ⟨["b"], ⟨[(["b"], .empty)]⟩, _, by cbv, by cbv⟩

end Folder

end Unnest.CommandLine
