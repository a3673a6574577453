import Unnest.CommandLine.Serve
import Unnest.Proofs.CommandLine.Folder
import Unnest.Proofs.CommandLine.Words
import Unnest.Proofs.Pass.FlatText

/-! How a run ends, on any file system that keeps its promises. It fails and leaves every file as it
was, or its flat text is printed, or is all that the output file comes to hold. There is one more end,
which is the file system's: an output that it has opened does not take the whole text. What a run
comes to does not depend on how the names are given. -/

namespace Unnest.CommandLine

open FileSystem

variable {σ φ : Type} {fs : FileSystem (StateM σ) φ} {v : FileView σ φ} {read : Css.Reader}
  {r : Request} {s : σ} {text flat : String}

/-- What keeps a run from its result: the input is not there or cannot be read, or is no text or no
style sheet, or the output cannot be opened. -/
inductive Hindered (fs : FileSystem (StateM σ) φ) (v : FileView σ φ) (read : Css.Reader)
    (r : Request) (s : σ) : Prop
  | missing (h : v.file? s r.input = none)
  | unreadable {fault : FileFault} (h : (fs.readAll r.input s).1 = .error fault)
  | notText {bytes : ByteArray} {fault : FileFault} (h : v.Holds s r.input bytes)
      (hbytes : textOf bytes = .error fault)
  | notSheet {text : String} {e : Error} (h : v.Holds s r.input text.toUTF8)
      (hread : read r.input text = .error e)
  | refused {output : String} {fault : FileFault} {s' : σ} (h : r.output = some output)
      (hcreate : fs.create output (fs.readText r.input s).2 = (.error fault, s'))

/-- The flat text is printed, or is what the output file holds afterwards. -/
def Delivers (v : FileView σ φ) (s : σ) (flat : String) (run : Ending × σ) : Option String → Prop
  | none => run.1.code = 0 ∧ run.1.printed = flat ∧ v.Same s run.2
  | some output => run.1.code = 0 ∧ run.1.printed = "" ∧ v.Holds run.2 output flat.toUTF8 ∧
      ∃ f, v.file? run.2 output = some f ∧ v.SameBut f s run.2

/-- The output file was opened and then did not take the text. -/
structure Broken (fs : FileSystem (StateM σ) φ) (v : FileView σ φ) (r : Request) (s : σ)
    (flat : String) (run : Ending × σ) : Prop where
  code : run.1.code = 1
  printed : run.1.printed = ""
  write : ∃ output, r.output = some output ∧
    fs.BreaksOff output flat (fs.readText r.input s).2 run.2 ∧
    ∃ f, v.file? run.2 output = some f ∧ v.SameBut f s run.2

theorem serveRequest_eq (fs : FileSystem (StateM σ) φ) (read : Css.Reader) (r : Request) (s : σ) :
    serveRequest fs read r s =
      match r.result read (fs.readText r.input s).1, r.output with
      | .error f, _ => (f.ending, (fs.readText r.input s).2)
      | .ok text, none => (⟨0, text, ""⟩, (fs.readText r.input s).2)
      | .ok text, some output =>
        match fs.writeText output text (fs.readText r.input s).2 with
        | (.ok _, s') => (⟨0, "", ""⟩, s')
        | (.error fault, s') => ((Failure.writing output fault).ending, s') := by
  simp only [serveRequest, bind, StateT.bind]
  obtain ⟨input, s⟩ := fs.readText r.input s
  dsimp only
  cases r.result read input with
  | error f => rfl
  | ok text =>
    cases r.output with
    | none => rfl
    | some output =>
      dsimp only [StateT.bind]
      rcases fs.writeText output text s with ⟨_ | _, _⟩ <;> rfl

theorem result_eq_ok_iff {input : Except FileFault String} :
    r.result read input = .ok flat ↔
      ∃ text, input = .ok text ∧ flattenRead read r.options r.input text = .ok flat := by
  unfold Request.result
  cases input with
  | error fault => simp
  | ok text =>
    cases hflat : flattenRead read r.options r.input text <;> simp [hflat]

/-- A run that is not hindered has a text, and from it a flat text. -/
theorem FileSystem.Behaves.exists_flat (hfs : fs.Behaves v) (h : ¬ Hindered fs v read r s) :
    ∃ text flat, (fs.readText r.input s).1 = .ok text ∧
      flattenRead read r.options r.input text = .ok flat := by
  cases hbytes : (fs.readAll r.input s).1 with
  | error fault => exact absurd (.unreadable hbytes) h
  | ok bytes =>
    have hholds := hfs.readAll_ok r.input s bytes hbytes
    cases htext : textOf bytes with
    | error fault => exact absurd (.notText hholds htext) h
    | ok text =>
      obtain rfl := textOf_eq_ok_iff.1 htext
      cases hsheet : read r.input text with
      | error e => exact absurd (.notSheet hholds hsheet) h
      | ok rules =>
        obtain ⟨flat, hflat⟩ := exists_flattenRead hsheet r.options
        exact ⟨text, flat, readText_ok_iff.2 hbytes, hflat⟩

/-- A hindered run that has a flat text cannot open its output. -/
theorem Hindered.exists_refused (h : Hindered fs v read r s) (hfs : fs.Behaves v)
    (htext : (fs.readText r.input s).1 = .ok text)
    (hflat : flattenRead read r.options r.input text = .ok flat) :
    ∃ output fault s', r.output = some output ∧
      fs.create output (fs.readText r.input s).2 = (.error fault, s') := by
  have hholds := hfs.holds_of_readText htext
  cases h with
  | missing hmissing =>
    obtain ⟨f, hfile, -⟩ := hholds
    rw [hmissing] at hfile
    cases hfile
  | unreadable hfault =>
    rw [readText_ok_iff.1 htext] at hfault
    cases hfault
  | notText hholds' hfault =>
    rw [← hholds.unique hholds', textOf_eq_ok_iff.2 rfl] at hfault
    cases hfault
  | notSheet hholds' hread =>
    obtain rfl := String.toByteArray_inj.1 (hholds.unique hholds')
    rw [flattenRead, hread] at hflat
    cases hflat
  | refused houtput hcreate => exact ⟨_, _, _, houtput, hcreate⟩

theorem FileSystem.Behaves.serveRequest_of_hindered (hfs : fs.Behaves v)
    (h : Hindered fs v read r s) :
    ∃ complaint s', serveRequest fs read r s = (⟨1, "", complaint⟩, s') ∧ v.Same s s' := by
  have hread := hfs.readText_same r.input s
  rw [serveRequest_eq]
  cases hresult : r.result read (fs.readText r.input s).1 with
  | error f => exact ⟨_, _, rfl, hread⟩
  | ok flat =>
    obtain ⟨text, htext, hflat⟩ := result_eq_ok_iff.1 hresult
    obtain ⟨output, fault, s', houtput, hcreate⟩ := h.exists_refused hfs htext hflat
    rw [houtput]
    dsimp only
    rw [writeText_of_create_error hcreate]
    exact ⟨_, _, rfl, hread.trans (hfs.create_error _ _ _ _ hcreate)⟩

/-- A run with a flat text delivers it, unless the opened output does not take it. -/
theorem FileSystem.Behaves.delivers_or_broken (hfs : fs.Behaves v)
    (h : ¬ Hindered fs v read r s) (htext : (fs.readText r.input s).1 = .ok text)
    (hflat : flattenRead read r.options r.input text = .ok flat) :
    let run := serveRequest fs read r s
    Delivers v s flat run r.output ∨ Broken fs v r s flat run := by
  have hread := hfs.readText_same r.input s
  dsimp only
  rw [serveRequest_eq, result_eq_ok_iff.2 ⟨text, htext, hflat⟩]
  cases houtput : r.output with
  | none => exact .inl ⟨rfl, rfl, hread⟩
  | some output =>
    dsimp only
    rcases hwrite : fs.writeText output flat (fs.readText r.input s).2 with ⟨fault | _, s'⟩
    · -- the output could be opened, so it is the write that has failed
      rcases hcreate : fs.create output (fs.readText r.input s).2 with ⟨fault' | f, opened⟩
      · exact absurd (.refused houtput hcreate) h
      · rw [writeText_of_create hcreate] at hwrite
        have hbreaks : fs.BreaksOff output flat (fs.readText r.input s).2 s' :=
          ⟨f, opened, fault, hcreate, hwrite⟩
        obtain ⟨g, hg, hsame⟩ := hfs.sameBut_of_breaksOff hbreaks
        exact .inr ⟨rfl, rfl, output, houtput, hbreaks, g, hg, (hread.sameBut g).trans hsame⟩
    · obtain ⟨hholds, g, hg, hsame⟩ := hfs.writeText_ok hwrite
      exact .inl ⟨rfl, rfl, hholds, g, hg, (hread.sameBut g).trans hsame⟩

/-- Requests for the same files, with options that know the same names. -/
theorem serveRequest_congr {r' : Request} (hinput : r.input = r'.input)
    (houtput : r.output = r'.output) (h : r.options.SameNames r'.options) :
    serveRequest fs read r s = serveRequest fs read r' s := by
  have hresult : r.result read = r'.result read := by
    funext input
    unfold Request.result
    rw [hinput, funext (flattenRead_of_sameNames read h r'.input)]
  rw [serveRequest, serveRequest, hresult, hinput, houtput]

theorem serveWith_eq {parse : List String → Option Arguments} {args : List String} {f : Flags}
    (h : parse args = some (.flags f)) (fs : FileSystem (StateM σ) φ) (read : Css.Reader) (s : σ) :
    serveWith fs parse read args s = serveRequest fs read f.request s := by
  rw [serveWith, h]

/-- A folder with one style sheet. -/
def sheetFolder (bytes : ByteArray) : Folder := ⟨[(["a.css"], bytes)]⟩

/-- A reader that knows one style sheet. -/
def readNested : Css.Reader := fun _ _ => .ok [.style ["a"] [] [] [.style ["& b"] [] [] []]]

theorem locate_sheetFolder (bytes : ByteArray) :
    (sheetFolder bytes).locate "a.css" = .ok (["a.css"], false) ∧
      (sheetFolder bytes).locate "./a.css" = .ok (["a.css"], false) := by
  rw [Folder.locate, Folder.locate, show Path.ofString "a.css" = ["a.css"] by decide +kernel,
    show Path.ofString "./a.css" = [".", "a.css"] by decide +kernel]
  exact ⟨rfl, rfl⟩

theorem holds_sheetFolder (bytes : ByteArray) :
    Folder.view.Holds (sheetFolder bytes) "a.css" bytes :=
  ⟨["a.css"], Folder.file?_eq_some_iff.2 ⟨(locate_sheetFolder bytes).1, rfl, rfl⟩, rfl⟩

theorem not_hindered_sheetFolder {text : String} {o : Options} :
    ¬ Hindered (Folder.system none) Folder.view readNested ⟨"a.css", some "./a.css", o⟩
      (sheetFolder text.toUTF8) := by
  have hholds := holds_sheetFolder text.toUTF8
  have hread : (Folder.system none).readAll "a.css" (sheetFolder text.toUTF8) =
      (.ok text.toUTF8, sheetFolder text.toUTF8) :=
    congrArg (·, sheetFolder text.toUTF8) (Folder.read_eq_ok_iff.2 hholds)
  intro h
  cases h with
  | missing hmissing =>
    obtain ⟨p, hp, -⟩ := hholds
    rw [hmissing] at hp
    cases hp
  | unreadable hfault =>
    rw [hread] at hfault
    cases hfault
  | notText hholds' hfault =>
    rw [← hholds.unique hholds', textOf_eq_ok_iff.2 rfl] at hfault
    cases hfault
  | notSheet _ hsheet => cases hsheet
  | refused houtput hcreate =>
    obtain rfl := Option.some.inj houtput
    have hplace := Folder.placeFor_eq_ok_iff.2 ⟨(locate_sheetFolder text.toUTF8).2, rfl⟩
    rw [readText_eq, hread, Folder.create_eq, hplace] at hcreate
    cases hcreate

end Unnest.CommandLine
