import Unnest.CommandLine.Files

/-! What an operating system promises about its calls on files. Reading changes nothing, a file that
cannot be opened is neither made nor changed, one that is opened anew is empty at first, and a write
that succeeds adds all its bytes. A write that fails may have added some of them: all that is promised
then is that it has not touched another file. -/

namespace Unnest.CommandLine

variable {σ φ : Type}

/-- What there is to see of the files in a state of the system: the file that a name leads to, and
what a file holds. -/
structure FileView (σ φ : Type) where
  file? : σ → String → Option φ
  content? : σ → φ → Option ByteArray

namespace FileView

/-- No file is made or changed. -/
structure Same (v : FileView σ φ) (s s' : σ) : Prop where
  names : v.file? s' = v.file? s
  contents : v.content? s' = v.content? s

/-- No file but `f` is made or changed, and old names lead where they led. -/
structure SameBut (v : FileView σ φ) (f : φ) (s s' : σ) : Prop where
  names : ∀ name, v.file? s' name = v.file? s name ∨
    (v.file? s name = none ∧ v.file? s' name = some f)
  contents : ∀ g, g ≠ f → v.content? s' g = v.content? s g

def Holds (v : FileView σ φ) (s : σ) (name : String) (bytes : ByteArray) : Prop :=
  ∃ f, v.file? s name = some f ∧ v.content? s f = some bytes

variable {v : FileView σ φ} {f : φ} {s s' s'' : σ}

theorem Holds.unique {name : String} {bytes bytes' : ByteArray} (h : v.Holds s name bytes)
    (h' : v.Holds s name bytes') : bytes = bytes' := by
  obtain ⟨f, hf, hbytes⟩ := h
  obtain ⟨f', hf', hbytes'⟩ := h'
  obtain rfl := Option.some.inj (hf.symm.trans hf')
  exact Option.some.inj (hbytes.symm.trans hbytes')

theorem Same.trans (h : v.Same s s') (h' : v.Same s' s'') : v.Same s s'' :=
  ⟨h'.names.trans h.names, h'.contents.trans h.contents⟩

theorem Same.sameBut (h : v.Same s s') (f : φ) : v.SameBut f s s' :=
  ⟨fun name => .inl (congrFun h.names name), fun g _ => congrFun h.contents g⟩

theorem SameBut.trans (h : v.SameBut f s s') (h' : v.SameBut f s' s'') : v.SameBut f s s'' := by
  refine ⟨fun name => ?_, fun g hg => (h'.contents g hg).trans (h.contents g hg)⟩
  rcases h.names name with hn | ⟨hnone, hn⟩
  · rw [← hn]
    exact h'.names name
  · refine .inr ⟨hnone, ?_⟩
    rcases h'.names name with hn' | ⟨hnone', -⟩
    · rw [hn', hn]
    · rw [hn] at hnone'
      cases hnone'

/-- The file that a name leads to stays the same. -/
theorem SameBut.file?_eq (h : v.SameBut f s s') {name : String} {g : φ}
    (hg : v.file? s name = some g) : v.file? s' name = some g := by
  rcases h.names name with hn | ⟨hnone, -⟩
  · rw [hn, hg]
  · rw [hg] at hnone
    cases hnone

end FileView

theorem textOf_eq_ok_iff {bytes : ByteArray} {text : String} :
    textOf bytes = .ok text ↔ bytes = text.toUTF8 := by
  have hself : String.fromUTF8? text.toUTF8 = some text := dif_pos (String.isValidUTF8 text)
  constructor
  · intro h
    unfold textOf String.fromUTF8? at h
    split at h
    · next ht =>
      split at ht
      · obtain rfl := Option.some.inj ht
        obtain rfl := Except.ok.inj h
        rfl
      · cases ht
    · cases h
  · rintro rfl
    rw [textOf, hself]

namespace FileSystem

/-- The promises. -/
structure Behaves (fs : FileSystem (StateM σ) φ) (v : FileView σ φ) : Prop where
  readAll_same : ∀ name s, v.Same s (fs.readAll name s).2
  readAll_ok : ∀ name s bytes, (fs.readAll name s).1 = .ok bytes → v.Holds s name bytes
  create_error : ∀ name s s' fault, fs.create name s = (.error fault, s') → v.Same s s'
  create_ok : ∀ name s s' f, fs.create name s = (.ok f, s') →
    v.SameBut f s s' ∧ v.file? s' name = some f ∧ v.content? s' f = some .empty
  writeAll_sameBut : ∀ f bytes s, v.SameBut f s (fs.writeAll f bytes s).2
  writeAll_ok : ∀ f bytes s s' before, fs.writeAll f bytes s = (.ok (), s') →
    v.content? s f = some before → v.content? s' f = some (before ++ bytes)

/-- A text is to be put into a file, the file is opened, and then it does not take the whole text. -/
def BreaksOff (fs : FileSystem (StateM σ) φ) (name text : String) (s s' : σ) : Prop :=
  ∃ f opened fault, fs.create name s = (.ok f, opened) ∧
    fs.writeAll f text.toUTF8 opened = (.error fault, s')

variable {fs : FileSystem (StateM σ) φ} {v : FileView σ φ} {name text : String} {s s' : σ}

theorem readText_eq (fs : FileSystem (StateM σ) φ) (name : String) (s : σ) :
    fs.readText name s = ((fs.readAll name s).1.bind textOf, (fs.readAll name s).2) := rfl

theorem readText_ok_iff : (fs.readText name s).1 = .ok text ↔
    (fs.readAll name s).1 = .ok text.toUTF8 := by
  rw [readText_eq]
  cases (fs.readAll name s).1 with
  | error fault => simp [Except.bind]
  | ok bytes => rw [Except.bind, textOf_eq_ok_iff, Except.ok.injEq]

theorem Behaves.readText_same (h : fs.Behaves v) (name : String) (s : σ) :
    v.Same s (fs.readText name s).2 := by
  rw [readText_eq]
  exact h.readAll_same name s

theorem Behaves.holds_of_readText (h : fs.Behaves v) (ht : (fs.readText name s).1 = .ok text) :
    v.Holds s name text.toUTF8 :=
  h.readAll_ok name s text.toUTF8 (readText_ok_iff.1 ht)

theorem writeText_of_create_error {fault : FileFault} (h : fs.create name s = (.error fault, s'))
    (text : String) : fs.writeText name text s = (.error fault, s') := by
  simp only [writeText, bind, StateT.bind, h]
  rfl

theorem writeText_of_create {f : φ} (h : fs.create name s = (.ok f, s')) (text : String) :
    fs.writeText name text s = fs.writeAll f text.toUTF8 s' := by
  simp only [writeText, bind, StateT.bind, h]

/-- A text that could be written is what the file holds, and all other files are as before. -/
theorem Behaves.writeText_ok (h : fs.Behaves v) (hw : fs.writeText name text s = (.ok (), s')) :
    v.Holds s' name text.toUTF8 ∧ ∃ f, v.file? s' name = some f ∧ v.SameBut f s s' := by
  rcases hcreate : fs.create name s with ⟨fault | f, opened⟩
  · rw [writeText_of_create_error hcreate] at hw
    cases hw
  · rw [writeText_of_create hcreate] at hw
    obtain ⟨hsame, hfile, hempty⟩ := h.create_ok name s opened f hcreate
    have hwrite := h.writeAll_sameBut f text.toUTF8 opened
    rw [hw] at hwrite
    have hfile' := hwrite.file?_eq hfile
    have hcontent := h.writeAll_ok f text.toUTF8 opened s' .empty hw hempty
    rw [ByteArray.empty_append] at hcontent
    exact ⟨⟨f, hfile', hcontent⟩, f, hfile', hsame.trans hwrite⟩

/-- A write that breaks off leaves all other files as they were. -/
theorem Behaves.sameBut_of_breaksOff (h : fs.Behaves v) (hb : fs.BreaksOff name text s s') :
    ∃ f, v.file? s' name = some f ∧ v.SameBut f s s' := by
  obtain ⟨f, opened, fault, hcreate, hw⟩ := hb
  obtain ⟨hsame, hfile, -⟩ := h.create_ok name s opened f hcreate
  have hwrite := h.writeAll_sameBut f text.toUTF8 opened
  rw [hw] at hwrite
  exact ⟨f, hwrite.file?_eq hfile, hsame.trans hwrite⟩

end FileSystem

end Unnest.CommandLine
