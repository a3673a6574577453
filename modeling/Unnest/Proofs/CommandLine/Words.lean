import Unnest.CommandLine.Request
import Unnest.Proofs.Pass.LetterCase

/-! The words of a command line. Reading the arguments is taking their words one by one, and the
words that add names can be taken last, so where they stand among the others is of no account. -/

namespace Unnest.CommandLine

open Options

/-- What one argument says, or two if the second is the value of the first. -/
inductive Word where
  | file (name : String)
  | switch (name : String)
  | value (flag value : String)

def isSwitch (name : String) : Bool := ["--preserve-empty", "--dispatch-stale"].contains name

/-- The words that arguments spell. A value stands behind its flag or behind an equals sign, and
everything behind `--` is a file. -/
inductive Spells : List String → List Word → Prop
  | nil : Spells [] []
  | late (files : List String) : Spells ("--" :: files) (files.map .file)
  | file {a : String} {args : List String} {ws : List Word} (ha : isFlag a = false)
      (h : Spells args ws) : Spells (a :: args) (.file a :: ws)
  | switch {name : String} {args : List String} {ws : List Word} (hname : isSwitch name = true)
      (h : Spells args ws) : Spells (name :: args) (.switch name :: ws)
  | apart {flag value : String} {args : List String} {ws : List Word}
      (hflag : takesValue flag = true) (hvalue : isFlag value = false) (h : Spells args ws) :
      Spells (flag :: value :: args) (.value flag value :: ws)
  | joined {flag : String} (value : String) {args : List String} {ws : List Word}
      (hflag : takesValue flag = true) (h : Spells args ws) :
      Spells ((flag ++ "=" ++ value) :: args) (.value flag value :: ws)

namespace Flags

def take (f : Flags) : Word → Option Flags
  | .file name => f.withFile name
  | .switch name => f.withSwitch name
  | .value flag value => f.withValue flag value

/-- There is at least an input file. -/
def finish (f : Flags) : Option Arguments := if f.files.isEmpty then none else some (.flags f)

end Flags

theorem isSwitch_cases {name : String} (h : isSwitch name = true) :
    name = "--preserve-empty" ∨ name = "--dispatch-stale" := by
  simpa [isSwitch] using h

/-- A flag without an equals sign is all name. -/
theorem splitFlag_of_not_mem {a : String} (h : '=' ∉ a.toList) : splitFlag a = (a, none) := by
  have hdrop : a.toList.dropWhile (· != '=') = [] :=
    List.dropWhile_eq_nil_iff.2 fun c hc => bne_iff_ne.2 fun he => h (he ▸ hc)
  rw [splitFlag, hdrop]

theorem splitFlag_joined {flag : String} (h : '=' ∉ flag.toList) (value : String) :
    splitFlag (flag ++ "=" ++ value) = (flag, some value) := by
  have hall : ∀ c ∈ flag.toList, (c != '=') = true := fun c hc =>
    bne_iff_ne.2 fun he => h (he ▸ hc)
  have hlist : (flag ++ "=" ++ value).toList = flag.toList ++ '=' :: value.toList := by simp
  have htake : (flag.toList ++ '=' :: value.toList).takeWhile (· != '=') = flag.toList := by
    rw [List.takeWhile_append_of_pos hall]
    simp
  have hdrop : (flag.toList ++ '=' :: value.toList).dropWhile (· != '=') =
      '=' :: value.toList := by
    rw [List.dropWhile_append_of_pos hall]
    simp
  rw [splitFlag, hlist, htake, hdrop]
  simp

theorem splitFlag_cases (a : String) : splitFlag a = (a, none) ∨
    ∃ flag value, a = flag ++ "=" ++ value ∧ splitFlag a = (flag, some value) := by
  by_cases h : '=' ∈ a.toList
  · obtain ⟨front, back, hlist, hfront⟩ := List.eq_append_cons_of_mem h
    have ha : a = String.ofList front ++ "=" ++ String.ofList back := by
      rw [← String.toList_inj, hlist]
      simp
    refine .inr ⟨_, _, ha, ?_⟩
    rw [ha]
    exact splitFlag_joined (by simpa using hfront) _
  · exact .inl (splitFlag_of_not_mem h)

theorem splitFlag_fst_of_none {a : String} (h : (splitFlag a).2 = none) : (splitFlag a).1 = a := by
  obtain hsplit | ⟨flag, value, -, hsplit⟩ := splitFlag_cases a
  · rw [hsplit]
  · rw [hsplit] at h
    cases h

theorem eq_of_splitFlag_snd {a value : String} (h : (splitFlag a).2 = some value) :
    a = (splitFlag a).1 ++ "=" ++ value := by
  obtain hsplit | ⟨flag, value', ha, hsplit⟩ := splitFlag_cases a
  · rw [hsplit] at h
    cases h
  · rw [hsplit] at h ⊢
    rwa [← Option.some.inj h]

theorem isSwitch_of_withSwitch {f f' : Flags} {name : String} (h : f.withSwitch name = some f') :
    isSwitch name = true := by
  unfold Flags.withSwitch at h
  split_ifs at h with hempty hstale
  · simp [isSwitch, hempty.1]
  · simp [isSwitch, hstale.1]

theorem takesValue_of_withValue {f f' : Flags} {flag value : String}
    (h : f.withValue flag value = some f') : takesValue flag = true := by
  unfold Flags.withValue at h
  split_ifs at h with hbubble hunwrap hroot
  · simp [takesValue, hbubble]
  · simp [takesValue, hunwrap]
  · simp [takesValue, hroot.1]

variable {f g : Flags} {args : List String} {ws : List Word}

/-- Arguments that ask for a run spell words. -/
theorem exists_spells (h : readArguments f args = some (.flags g)) : ∃ ws, Spells args ws := by
  fun_induction readArguments f args with
  | case1 | case4 | case6 => cases h
  | case2 => exact ⟨[], .nil⟩
  | case3 f rest => exact ⟨_, .late rest⟩
  | case5 f a hlate hflag hhelp flag value rest hvalue ih =>
    obtain ⟨f', htake, hrest⟩ := Option.bind_eq_some_iff.1 h
    obtain ⟨ws, hws⟩ := ih f' hrest
    rw [eq_of_splitFlag_snd hvalue]
    exact ⟨_, .joined value (takesValue_of_withValue htake) hws⟩
  | case7 f a hlate hflag hhelp flag value rest hnone htakes hvalue ih =>
    obtain ⟨f', -, hrest⟩ := Option.bind_eq_some_iff.1 h
    obtain ⟨ws, hws⟩ := ih f' hrest
    rw [← splitFlag_fst_of_none hnone]
    exact ⟨_, .apart htakes (Bool.eq_false_of_not_eq_true hvalue) hws⟩
  | case8 f a hlate hflag hhelp flag value rest hnone htakes ih =>
    obtain ⟨f', htake, hrest⟩ := Option.bind_eq_some_iff.1 h
    obtain ⟨ws, hws⟩ := ih f' hrest
    rw [← splitFlag_fst_of_none hnone]
    exact ⟨_, .switch (isSwitch_of_withSwitch htake) hws⟩
  | case9 f a hlate hflag hhelp flag hnone ih =>
    obtain ⟨f', htake, -⟩ := Option.bind_eq_some_iff.1 h
    rw [← splitFlag_fst_of_none hnone]
    exact ⟨_, .switch (isSwitch_of_withSwitch htake) .nil⟩
  | case10 f a rest hlate hflag ih =>
    obtain ⟨f', -, hrest⟩ := Option.bind_eq_some_iff.1 h
    obtain ⟨ws, hws⟩ := ih f' hrest
    exact ⟨_, .file (Bool.eq_false_of_not_eq_true hflag) hws⟩

/-- The flags that words have: none is `--` or asks for help, and none has an equals sign. -/
theorem plain_of_isSwitch_or_takesValue {name : String}
    (h : isSwitch name = true ∨ takesValue name = true) :
    name ≠ "--" ∧ isFlag name = true ∧ ¬(name = "--help" ∨ name = "-h") ∧ '=' ∉ name.toList := by
  have hnames : name = "--preserve-empty" ∨ name = "--dispatch-stale" ∨ name = "--bubble" ∨
      name = "--unwrap" ∨ name = "--root-rule-name" := by
    simpa [isSwitch, takesValue, or_assoc] using h
  rcases hnames with rfl | rfl | rfl | rfl | rfl <;> decide

theorem isFlag_append {a : String} (h : isFlag a = true) (b : String) : isFlag (a ++ b) = true := by
  unfold isFlag at h ⊢
  split at h
  · next c l hlist => rw [String.toList_append, hlist]; rfl
  · cases h

theorem readArguments_file (f : Flags) {a : String} (ha : isFlag a = false) (args : List String) :
    readArguments f (a :: args) = (f.withFile a).bind fun f => readArguments f args := by
  have hlate : a ≠ "--" := by
    rintro rfl
    cases ha
  rw [readArguments, if_neg hlate, ha, if_neg Bool.false_ne_true]

theorem readArguments_switch (f : Flags) {name : String} (h : isSwitch name = true)
    (args : List String) :
    readArguments f (name :: args) = (f.withSwitch name).bind fun f => readArguments f args := by
  obtain ⟨hlate, hflag, hhelp, hname⟩ := plain_of_isSwitch_or_takesValue (.inl h)
  have htakes : takesValue name = false := by
    rcases isSwitch_cases h with rfl | rfl <;> decide
  cases args with
  | nil => rw [readArguments, if_neg hlate, if_pos hflag, if_neg hhelp, splitFlag_of_not_mem hname]
  | cons a args =>
    rw [readArguments, if_neg hlate, if_pos hflag, if_neg hhelp, splitFlag_of_not_mem hname]
    dsimp only
    rw [htakes, if_neg Bool.false_ne_true]

theorem readArguments_apart (f : Flags) {flag value : String} (h : takesValue flag = true)
    (hvalue : isFlag value = false) (args : List String) :
    readArguments f (flag :: value :: args) =
      (f.withValue flag value).bind fun f => readArguments f args := by
  obtain ⟨hlate, hflag, hhelp, hname⟩ := plain_of_isSwitch_or_takesValue (.inr h)
  rw [readArguments, if_neg hlate, if_pos hflag, if_neg hhelp, splitFlag_of_not_mem hname]
  dsimp only
  rw [if_pos h, hvalue, if_neg Bool.false_ne_true]

theorem readArguments_joined (f : Flags) {flag : String} (h : takesValue flag = true)
    (value : String) (args : List String) :
    readArguments f ((flag ++ "=" ++ value) :: args) =
      (f.withValue flag value).bind fun f => readArguments f args := by
  obtain ⟨-, hflag, -, hname⟩ := plain_of_isSwitch_or_takesValue (.inr h)
  have hmem : '=' ∈ (flag ++ "=" ++ value).toList := by simp
  have hne : ∀ {a : String}, '=' ∉ a.toList → flag ++ "=" ++ value ≠ a :=
    fun ha he => ha (he ▸ hmem)
  have hhelp : ¬(flag ++ "=" ++ value = "--help" ∨ flag ++ "=" ++ value = "-h") :=
    not_or.2 ⟨hne (by decide), hne (by decide)⟩
  rw [readArguments, if_neg (hne (by decide)), if_pos (isFlag_append (isFlag_append hflag _) _),
    if_neg hhelp, splitFlag_joined hname]

/-- A word in front of arguments that are read word by word. -/
theorem readArguments_cons {front : List String} {w : Word}
    (hw : ∀ f, readArguments f front = (f.take w).bind fun f => readArguments f args)
    (ih : ∀ f, readArguments f args = (ws.foldlM Flags.take f).bind Flags.finish) (f : Flags) :
    readArguments f front = ((w :: ws).foldlM Flags.take f).bind Flags.finish := by
  rw [hw, List.foldlM_cons]
  simp only [ih]
  exact (Option.bind_assoc ..).symm

theorem readArguments_of_spells (h : Spells args ws) (f : Flags) :
    readArguments f args = (ws.foldlM Flags.take f).bind Flags.finish := by
  induction h generalizing f with
  | nil => rfl
  | late files =>
    rw [readArguments, if_pos rfl, List.foldlM_map]
    rfl
  | file ha h ih => exact readArguments_cons (readArguments_file · ha _) ih f
  | switch hname h ih => exact readArguments_cons (readArguments_switch · hname _) ih f
  | apart hflag hvalue h ih => exact readArguments_cons (readArguments_apart · hflag hvalue _) ih f
  | joined value hflag h ih => exact readArguments_cons (readArguments_joined · hflag value _) ih f

/-- What is asked for is what the words say, taken one by one. -/
theorem readArguments_eq_flags_iff : readArguments {} args = some (.flags f) ↔
    ∃ ws, Spells args ws ∧ (ws.foldlM Flags.take {}).bind Flags.finish = some (.flags f) := by
  constructor
  · intro h
    obtain ⟨ws, hws⟩ := exists_spells h
    exact ⟨ws, hws, (readArguments_of_spells hws {}).symm.trans h⟩
  · rintro ⟨ws, hws, h⟩
    exact (readArguments_of_spells hws {}).trans h

/-! The words that add names. -/

/-- The name that a word adds to the options. -/
def Word.addition? : Word → Option Addition
  | .value flag name =>
    if flag = "--bubble" then some (.bubble name)
    else if flag = "--unwrap" then some (.unwrap name)
    else none
  | _ => none

/-- Command lines that add the same names, in whatever order, number and letters and at whatever
places, and are equal otherwise. -/
structure Reflagged (ws ws' : List Word) : Prop where
  names : SameAdditions (ws.filterMap Word.addition?) (ws'.filterMap Word.addition?)
  others : ws.filter (·.addition?.isNone) = ws'.filter (·.addition?.isNone)

namespace Flags

def additions (f : Flags) : List Addition := f.bubble.map .bubble ++ f.unwrap.map .unwrap

def adding (f : Flags) (added : List Addition) : Flags :=
  { f with
    bubble := f.bubble ++ added.filterMap Addition.bubble?
    unwrap := f.unwrap ++ added.filterMap Addition.unwrap? }

theorem mem_additions_adding {f : Flags} {added : List Addition} {a : Addition} :
    a ∈ (f.adding added).additions ↔ a ∈ f.additions ∨ a ∈ added := by
  cases a with
  | bubble name => simp [additions, adding, Addition.bubble?_eq_some]
  | unwrap name => simp [additions, adding, Addition.unwrap?_eq_some]

theorem adding_nil (f : Flags) : f.adding [] = f := by
  rw [adding, List.filterMap_nil, List.filterMap_nil, List.append_nil, List.append_nil]

theorem adding_adding (f : Flags) (added added' : List Addition) :
    (f.adding added).adding added' = f.adding (added ++ added') := by
  simp [adding]

theorem take_of_addition {w : Word} {a : Addition} (h : w.addition? = some a) (f : Flags) :
    f.take w = some (f.adding [a]) := by
  cases w with
  | file | switch => cases h
  | value flag name =>
    rw [Word.addition?] at h
    split_ifs at h with hbubble hunwrap
    · obtain rfl := Option.some.inj h
      simp [take, withValue, hbubble, adding, Addition.bubble?, Addition.unwrap?]
    · obtain rfl := Option.some.inj h
      simp [take, withValue, hunwrap, adding, Addition.bubble?, Addition.unwrap?]

/-- Names can be added before or after any other word. -/
theorem take_adding {w : Word} (h : w.addition? = none) (f : Flags) (added : List Addition) :
    (f.adding added).take w = (f.take w).map (·.adding added) := by
  cases w with
  | file name =>
    rw [take, take, withFile, withFile, adding]
    split_ifs <;> rfl
  | switch name =>
    rw [take, take, withSwitch, withSwitch, adding]
    split_ifs <;> rfl
  | value flag value =>
    rw [Word.addition?] at h
    split_ifs at h with hbubble hunwrap
    rw [take, take, withValue, withValue, if_neg hbubble, if_neg hunwrap, if_neg hbubble,
      if_neg hunwrap, adding]
    split_ifs <;> rfl

theorem foldlM_take_adding {ws : List Word} (h : ∀ w ∈ ws, w.addition? = none) (f : Flags)
    (added : List Addition) :
    ws.foldlM take (f.adding added) = (ws.foldlM take f).map (·.adding added) := by
  induction ws generalizing f with
  | nil => rfl
  | cons w ws ih =>
    obtain ⟨hw, hws⟩ := List.forall_mem_cons.1 h
    rw [List.foldlM_cons, List.foldlM_cons, take_adding hw]
    cases f.take w with
    | none => rfl
    | some f' => exact ih hws f'

/-- All words that add names can be taken last. -/
theorem foldlM_take (ws : List Word) (f : Flags) :
    ws.foldlM take f = ((ws.filter (·.addition?.isNone)).foldlM take f).map
      (·.adding (ws.filterMap Word.addition?)) := by
  induction ws generalizing f with
  | nil => exact congrArg some (adding_nil f).symm
  | cons w ws ih =>
    cases hw : w.addition? with
    | none =>
      rw [List.filter_cons_of_pos (by rw [hw]; rfl), List.filterMap_cons_none hw, List.foldlM_cons,
        List.foldlM_cons]
      cases f.take w with
      | none => rfl
      | some f' => exact ih f'
    | some a =>
      have hothers : ∀ w ∈ ws.filter (·.addition?.isNone), w.addition? = none := fun w hw =>
        Option.isNone_iff_eq_none.1 (List.mem_filter.1 hw).2
      rw [List.filter_cons_of_neg (by rw [hw]; exact Bool.false_ne_true),
        List.filterMap_cons_some hw, List.foldlM_cons, take_of_addition hw]
      calc (some (f.adding [a])).bind (ws.foldlM take)
        _ = ((ws.filter (·.addition?.isNone)).foldlM take (f.adding [a])).map
            (·.adding (ws.filterMap Word.addition?)) := ih _
        _ = (((ws.filter (·.addition?.isNone)).foldlM take f).map (·.adding [a])).map
            (·.adding (ws.filterMap Word.addition?)) := by rw [foldlM_take_adding hothers]
        _ = ((ws.filter (·.addition?.isNone)).foldlM take f).map
            (·.adding (a :: ws.filterMap Word.addition?)) := by
          rw [Option.map_map]
          simp only [Function.comp_def, adding_adding, List.singleton_append]

/-- The names of the options that the flags ask for. -/
theorem options_names (f : Flags) :
    let o := extended { preserveEmpty := f.preserveEmpty } f.additions
    f.options.preserveEmpty = o.preserveEmpty ∧ f.options.bubble = o.bubble ∧
      f.options.unwrap = o.unwrap ∧
      f.options.rootRuleName = (f.rootRuleName.map atRuleName).getD o.rootRuleName := by
  have hnames : extended { preserveEmpty := f.preserveEmpty } f.additions =
      f.unwrap.foldl alsoUnwrap (f.bubble.foldl alsoBubble { preserveEmpty := f.preserveEmpty }) := by
    rw [extended, additions, List.foldl_append, List.foldl_map, List.foldl_map]
    rfl
  rw [hnames, options]
  cases f.rootRuleName <;> cases f.dispatchStale <;> simp [withRootRule]

theorem exists_like_adding (f : Flags) {added added' : List Addition}
    (h : ∀ x ∈ added, ∃ y ∈ added', x.Like y) :
    ∀ x ∈ (f.adding added).additions, ∃ y ∈ (f.adding added').additions, x.Like y := by
  intro x hx
  rcases mem_additions_adding.1 hx with hx | hx
  · exact ⟨x, mem_additions_adding.2 (.inl hx), .refl x⟩
  · obtain ⟨y, hy, hlike⟩ := h x hx
    exact ⟨y, mem_additions_adding.2 (.inr hy), hlike⟩

/-- Flags that give the same names, in whatever order and number, and agree in everything else that
bears on the text. -/
structure Alike (f f' : Flags) : Prop where
  files : f'.files = f.files
  preserveEmpty : f'.preserveEmpty = f.preserveEmpty
  rootRuleName : f'.rootRuleName = f.rootRuleName
  additions : SameAdditions f.additions f'.additions

theorem alike_adding (f : Flags) {added added' : List Addition} (h : SameAdditions added added') :
    (f.adding added).Alike (f.adding added') :=
  ⟨rfl, rfl, rfl, f.exists_like_adding h.1, f.exists_like_adding h.2⟩

/-- Flags that give the same names lead to options that know the same names. -/
theorem Alike.sameNames {f f' : Flags} (h : f.Alike f') : f.options.SameNames f'.options := by
  have hnames := sameNames_extended { preserveEmpty := f.preserveEmpty } h.additions
  obtain ⟨hpreserve, hbubble, hunwrap, hroot⟩ := options_names f
  obtain ⟨hpreserve', hbubble', hunwrap', hroot'⟩ := options_names f'
  rw [h.preserveEmpty] at hpreserve' hbubble' hunwrap' hroot'
  constructor
  · rw [hpreserve, hpreserve']
    exact hnames.preserveEmpty
  · rw [hbubble, hbubble']
    exact hnames.bubble
  · rw [hunwrap, hunwrap']
    exact hnames.unwrap
  · rw [hroot, hroot', h.rootRuleName]
    -- the name of the root rule comes from the same flag, if there is one
    cases f.rootRuleName with
    | none => exact hnames.rootRuleName
    | some name => exact Text.sameName_refl _

end Flags

/-- Command lines that add the same names and are equal otherwise give flags that are alike. -/
theorem Reflagged.exists_flags {ws' : List Word} {args' : List String} (h : Reflagged ws ws')
    (hws : Spells args ws) (hws' : Spells args' ws')
    (hargs : readArguments {} args = some (.flags f)) :
    ∃ f', readArguments {} args' = some (.flags f') ∧ f.Alike f' := by
  rw [readArguments_of_spells hws, Flags.foldlM_take] at hargs
  obtain ⟨f₁, hf₁, hfinish⟩ := Option.bind_eq_some_iff.1 hargs
  obtain ⟨g, hg, rfl⟩ := Option.map_eq_some_iff.1 hf₁
  unfold Flags.finish at hfinish
  split_ifs at hfinish with hfiles
  obtain rfl := Arguments.flags.inj (Option.some.inj hfinish)
  refine ⟨g.adding (ws'.filterMap Word.addition?), ?_, g.alike_adding h.names⟩
  rw [readArguments_of_spells hws', Flags.foldlM_take, ← h.others, hg]
  exact if_neg hfiles

end Unnest.CommandLine
