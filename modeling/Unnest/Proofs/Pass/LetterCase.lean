import Unnest.Proofs.Pass.Meaning
import Unnest.Proofs.Text.Trim
import Unnest.Proofs.Tree.Respell

/-! Names of at-rules are the same in capitals and in small letters. Lists of names that hold the
same names up to letter case, in any order and with repetitions, give the same answers, so passes
over documents that differ in letters only go the same way. -/

namespace Unnest

open Text

namespace Text

theorem sameName_symm {a b : String} (h : sameName a b = true) : sameName b a = true :=
  sameName_iff.2 (sameName_iff.1 h).symm

theorem sameName_trans {a b c : String} (h : sameName a b = true) (h' : sameName b c = true) :
    sameName a c = true :=
  sameName_iff.2 ((sameName_iff.1 h).trans (sameName_iff.1 h'))

theorem sameName_congr {a b c : String} (h : sameName b c = true) :
    sameName a b = sameName a c := by
  simp only [sameName, sameName_iff.1 h]

/-- The name in small letters. -/
def small (name : String) : String := String.ofList (lowered name)

theorem sameName_small (name : String) : sameName (small name) name = true := by
  rw [sameName_iff, lowered, small, String.toList_ofList, lowered, List.map_map]
  exact List.map_congr_left fun c _ => toLower_toLower c

theorem map_toLower_trimChars (l : List Char) :
    (trimChars l).map Char.toLower = trimChars (l.map Char.toLower) := by
  have hblank : isBlank ∘ Char.toLower = isBlank := funext isBlank_toLower
  simp only [trimChars, dropEnd, ← List.map_reverse, List.dropWhile_map, hblank]

end Text

namespace Options

/-- Both lists hold the same names, up to letter case. -/
def SameList (names names' : List String) : Prop :=
  (∀ n ∈ names, ∃ m ∈ names', sameName n m = true) ∧
    ∀ m ∈ names', ∃ n ∈ names, sameName m n = true

/-- Options that treat empty rules alike and know the same names, up to letter case. -/
structure SameNames (o o' : Options) : Prop where
  preserveEmpty : o.preserveEmpty = o'.preserveEmpty
  bubble : SameList o.bubble o'.bubble
  unwrap : SameList o.unwrap o'.unwrap
  rootRuleName : sameName o.rootRuleName o'.rootRuleName = true

variable {o o' : Options} {names names' : List String}

theorem SameList.symm (h : SameList names names') : SameList names' names := ⟨h.2, h.1⟩

theorem SameList.any_of_any (h : SameList names names') {n n' : String}
    (hn : sameName n n' = true) (hany : names.any (sameName · n) = true) :
    names'.any (sameName · n') = true := by
  obtain ⟨a, ha, hsame⟩ := List.any_eq_true.1 hany
  obtain ⟨b, hb, hab⟩ := h.1 a ha
  exact List.any_eq_true.2
    ⟨b, hb, sameName_trans (sameName_symm hab) (sameName_trans hsame hn)⟩

theorem SameList.any_eq (h : SameList names names') {n n' : String} (hn : sameName n n' = true) :
    names.any (sameName · n) = names'.any (sameName · n') := by
  rw [Bool.eq_iff_iff]
  exact ⟨h.any_of_any hn, h.symm.any_of_any (sameName_symm hn)⟩

/-- Options that know the same names follow each other through every change of letter case. -/
theorem SameNames.follows (h : SameNames o o') {ν : String → String}
    (hν : ∀ n, sameName (ν n) n = true) : o.Follows ν o' where
  preserveEmpty := h.preserveEmpty.symm
  namesRootRule n := by
    rw [namesRootRule, namesRootRule, sameName_congr (hν n)]
    exact Bool.eq_iff_iff.2
      ⟨sameName_trans h.rootRuleName, sameName_trans (sameName_symm h.rootRuleName)⟩
  bubbles n := (h.bubble.any_eq (sameName_symm (hν n))).symm
  unwraps n := (h.unwrap.any_eq (sameName_symm (hν n))).symm

theorem SameList.refl (names : List String) : SameList names names :=
  ⟨fun n hn => ⟨n, hn, sameName_refl n⟩, fun n hn => ⟨n, hn, sameName_refl n⟩⟩

theorem SameNames.refl (o : Options) : SameNames o o :=
  ⟨rfl, .refl _, .refl _, sameName_refl _⟩

/-! Options that were built by adding names. -/

/-- A name that is added to the options. -/
inductive Addition where
  | bubble (name : String)
  | unwrap (name : String)

def Addition.bubble? : Addition → Option String
  | .bubble name => some name
  | .unwrap _ => none

def Addition.unwrap? : Addition → Option String
  | .bubble _ => none
  | .unwrap name => some name

theorem Addition.bubble?_eq_some {a : Addition} {name : String} :
    a.bubble? = some name ↔ a = .bubble name := by
  cases a <;> simp [Addition.bubble?]

theorem Addition.unwrap?_eq_some {a : Addition} {name : String} :
    a.unwrap? = some name ↔ a = .unwrap name := by
  cases a <;> simp [Addition.unwrap?]

def add (o : Options) : Addition → Options
  | .bubble name => o.alsoBubble name
  | .unwrap name => o.alsoUnwrap name

/-- The options after some additions, one after the other. -/
def extended (o : Options) (added : List Addition) : Options := added.foldl add o

/-- The same name written another way: in other letters, or with an `@` before a trimmed name. -/
inductive Rewritten : String → String → Prop where
  | letters {n m : String} (h : sameName n m = true) : Rewritten n m
  | marked {n : String} (h : trim n = n) : Rewritten n ("@" ++ n)
  | symm {n m : String} (h : Rewritten n m) : Rewritten m n
  | trans {n m k : String} (h : Rewritten n m) (h' : Rewritten m k) : Rewritten n k

inductive Addition.Like : Addition → Addition → Prop where
  | bubble {n m : String} (h : Rewritten n m) : Like (.bubble n) (.bubble m)
  | unwrap {n m : String} (h : Rewritten n m) : Like (.unwrap n) (.unwrap m)

theorem Addition.Like.refl (a : Addition) : a.Like a := by
  cases a with
  | bubble name => exact .bubble (.letters (sameName_refl name))
  | unwrap name => exact .unwrap (.letters (sameName_refl name))

/-- Every addition of either list is in the other one, maybe written another way; neither order nor
repetitions matter. -/
def SameAdditions (added added' : List Addition) : Prop :=
  (∀ x ∈ added, ∃ y ∈ added', x.Like y) ∧ ∀ y ∈ added', ∃ x ∈ added, y.Like x

theorem lowered_atRuleName (name : String) : lowered (atRuleName name) =
    (trimChars (lowered name)).dropWhile (· == '@') := by
  have hmark : (· == '@') ∘ Char.toLower = (· == '@') := by
    funext c
    rcases toLower_cases c with h | ⟨hlow, hhigh, h⟩
    · simp [h]
    · have hc : c ≠ '@' := fun he => by rw [he] at hlow; exact absurd hlow (by decide)
      have hc' : c.toLower ≠ '@' := fun he => by
        have hval : c.toLower.toNat = 64 := by rw [he]; rfl
        omega
      simp [hc, hc']
  rw [lowered, lowered, ← map_toLower_trimChars, List.dropWhile_map, hmark, atRuleName,
    String.toList_ofList]

/-- A leading `@` is dropped from a trimmed name. -/
theorem atRuleName_marked {name : String} (h : trim name = name) :
    atRuleName ("@" ++ name) = atRuleName name := by
  have htrim : Trimmed name.toList := by
    rw [← trimChars_eq_self_iff, ← toList_trim, h]
  have hmarked : Trimmed ('@' :: name.toList) := by
    refine ⟨by simp; decide, fun c hc => ?_⟩
    cases hl : name.toList with
    | nil =>
      rw [hl] at hc
      obtain rfl : '@' = c := by simpa using hc
      decide
    | cons d l =>
      rw [hl] at hc htrim
      exact htrim.2 c (by simpa [List.getLast?_cons_cons] using hc)
  have hlist : ("@" ++ name).toList = '@' :: name.toList := by simp
  rw [atRuleName, atRuleName, hlist, trimChars_eq_self hmarked, trimChars_eq_self htrim]
  simp

theorem Rewritten.sameName_atRuleName {n m : String} (h : Rewritten n m) :
    sameName (atRuleName n) (atRuleName m) = true := by
  induction h with
  | letters h =>
    rw [sameName_iff, lowered_atRuleName, lowered_atRuleName, sameName_iff.1 h]
  | marked h =>
    rw [atRuleName_marked h]
    exact sameName_refl _
  | symm _ ih => exact sameName_symm ih
  | trans _ _ ih ih' => exact sameName_trans ih ih'

/-- What additions do to one of the lists, which they may give a name to. -/
theorem mem_extended {list : Options → List String} {given : Addition → Option String}
    (h : ∀ o a x, x ∈ list (add o a) ↔ x ∈ list o ∨ ∃ n ∈ given a, x = atRuleName n)
    (added : List Addition) (o : Options) (x : String) : x ∈ list (o.extended added) ↔
      x ∈ list o ∨ ∃ a ∈ added, ∃ n ∈ given a, x = atRuleName n := by
  induction added generalizing o with
  | nil => simp [extended]
  | cons a added ih =>
    rw [extended, List.foldl_cons, ← extended, ih, h, List.exists_mem_cons_iff, or_assoc]

theorem exists_mem_extended {list : Options → List String} {given : Addition → Option String}
    (h : ∀ o a x, x ∈ list (add o a) ↔ x ∈ list o ∨ ∃ n ∈ given a, x = atRuleName n)
    (hgiven : ∀ a b, Addition.Like a b → ∀ n ∈ given a, ∃ m ∈ given b, Rewritten n m)
    {added added' : List Addition} (hadded : ∀ a ∈ added, ∃ b ∈ added', a.Like b) (o : Options) :
    ∀ x ∈ list (o.extended added), ∃ y ∈ list (o.extended added'), sameName x y = true := by
  intro x hx
  rcases (mem_extended h added o x).1 hx with hx | ⟨a, ha, n, hn, rfl⟩
  · exact ⟨x, (mem_extended h added' o x).2 (.inl hx), sameName_refl x⟩
  · obtain ⟨b, hb, hlike⟩ := hadded a ha
    obtain ⟨m, hm, hnm⟩ := hgiven a b hlike n hn
    exact ⟨atRuleName m, (mem_extended h added' o _).2 (.inr ⟨b, hb, m, hm, rfl⟩),
      hnm.sameName_atRuleName⟩

theorem mem_bubble_add (o : Options) (a : Addition) (x : String) :
    x ∈ (add o a).bubble ↔ x ∈ o.bubble ∨ ∃ n ∈ a.bubble?, x = atRuleName n := by
  cases a <;> simp [add, alsoBubble, alsoUnwrap, Addition.bubble?, mem_addName]

theorem mem_unwrap_add (o : Options) (a : Addition) (x : String) :
    x ∈ (add o a).unwrap ↔ x ∈ o.unwrap ∨ ∃ n ∈ a.unwrap?, x = atRuleName n := by
  cases a <;> simp [add, alsoBubble, alsoUnwrap, Addition.unwrap?, mem_addName]

theorem Addition.Like.bubble? {a b : Addition} (h : a.Like b) :
    ∀ n ∈ a.bubble?, ∃ m ∈ b.bubble?, Rewritten n m := by
  cases h with
  | bubble h => simpa [Addition.bubble?] using h
  | unwrap h => simp [Addition.bubble?]

theorem Addition.Like.unwrap? {a b : Addition} (h : a.Like b) :
    ∀ n ∈ a.unwrap?, ∃ m ∈ b.unwrap?, Rewritten n m := by
  cases h with
  | bubble h => simp [Addition.unwrap?]
  | unwrap h => simpa [Addition.unwrap?] using h

/-- Additions leave all but the two lists alone. -/
theorem extended_rest (o : Options) (added : List Addition) :
    (o.extended added).preserveEmpty = o.preserveEmpty ∧
      (o.extended added).rootRuleName = o.rootRuleName := by
  induction added generalizing o with
  | nil => exact ⟨rfl, rfl⟩
  | cons a added ih =>
    rw [extended, List.foldl_cons, ← extended]
    cases a <;> exact ih _

theorem sameNames_extended (o : Options) {added added' : List Addition}
    (h : SameAdditions added added') : (o.extended added).SameNames (o.extended added') where
  preserveEmpty := by rw [(extended_rest o added).1, (extended_rest o added').1]
  bubble := ⟨exists_mem_extended mem_bubble_add (fun _ _ => Addition.Like.bubble?) h.1 o,
    exists_mem_extended mem_bubble_add (fun _ _ => Addition.Like.bubble?) h.2 o⟩
  unwrap := ⟨exists_mem_extended mem_unwrap_add (fun _ _ => Addition.Like.unwrap?) h.1 o,
    exists_mem_extended mem_unwrap_add (fun _ _ => Addition.Like.unwrap?) h.2 o⟩
  rootRuleName := by
    rw [(extended_rest o added).2, (extended_rest o added').2]
    exact sameName_refl _

end Options

namespace Pass

open Tree Store Options

variable {ρ : Type}

/-- The passes over two documents that are equal once their labels and the case of at-rule names are
exchanged, with options that know the same names: they count the same, and what they leave is equal
in the same way, a node for its counterpart and a new node for a new one. Options know the same
names if the same names were added, in whatever order, number and letters. -/
theorem flatten_ignores_letter_case {β : Type} {f₁ f₂ : NodeId → β} {ν : String → String}
    {s₁ s₂ : Store} {doc₁ doc₂ : NodeId} {ts₁ ts₂ : List (Tree NodeId)}
    (h₁ : s₁.IsDocument doc₁ ts₁) (h₂ : s₂.IsDocument doc₂ ts₂)
    (hν : ∀ n, sameName (ν n) n = true) (hsame : respellAll f₁ ν ts₁ = respellAll f₂ ν ts₂) :
    (∀ o₁ o₂ : Options, o₁.SameNames o₂ → ∀ (log : Array Event) (own : ρ),
      ∃ st s₁' ts₁' log₁ s₂' ts₂' log₂,
        flatten o₁ doc₁ ⟨s₁, log, own⟩ = .ok st ⟨s₁', log₁, own⟩ ∧ s₁'.IsDocument doc₁ ts₁' ∧
        flatten o₂ doc₂ ⟨s₂, log, own⟩ = .ok st ⟨s₂', log₂, own⟩ ∧ s₂'.IsDocument doc₂ ts₂' ∧
        respellAll (fun n => (origin s₁.size n).map f₁) ν ts₁' =
          respellAll (fun n => (origin s₂.size n).map f₂) ν ts₂') ∧
    ∀ (o : Options) (added added' : List Addition), SameAdditions added added' →
      (o.extended added).SameNames (o.extended added') := by
  refine ⟨fun o₁ o₂ ho log own => ?_, fun o _ _ => o.sameNames_extended⟩
  obtain ⟨s₁', ts₁', hrun₁, hb₁, hts₁⟩ := runs_flatten (ρ := ρ) o₁ h₁
  obtain ⟨s₂', ts₂', hrun₂, hb₂, hts₂⟩ := runs_flatten (ρ := ρ) o₂ h₂
  obtain ⟨log₁, hok₁⟩ := hrun₁ log own
  obtain ⟨log₂, hok₂⟩ := hrun₂ log own
  have hcount : (rulesAll ts₁).length = (rulesAll ts₂).length := by
    have hrules := congrArg (fun us => (rulesAll us).length) hsame
    simpa [rulesAll_respellAll] using hrules
  have hflat : ∀ {s : Store} {ts ts' : List (Tree NodeId)} (f : NodeId → β) (o : Options),
      o.Follows ν o₂ →
      mapAll (origin s.size) ts' = flatAll o none (fun _ => true) (mapAll some ts) →
      respellAll (fun n => (origin s.size n).map f) ν ts' =
        flatAll o₂ none (fun _ => true) (mapAll some (respellAll f ν ts)) := by
    intro s ts ts' f o hfollows hts
    calc respellAll (Option.map f ∘ origin s.size) ν ts'
      _ = respellAll (Option.map f) ν (mapAll (origin s.size) ts') := (respellAll_mapAll _ _).symm
      _ = flatAll o₂ none (fun _ => true) (respellAll (Option.map f) ν (mapAll some ts)) := by
        rw [hts, respell_flatAll hfollows]
        rfl
      _ = flatAll o₂ none (fun _ => true) (mapAll some (respellAll f ν ts)) := by
        rw [respellAll_mapAll, mapAll_respellAll]
        rfl
  refine ⟨_, s₁', ts₁', log₁, s₂', ts₂', log₂, hok₁, hb₁.part.isDocument, ?_, hb₂.part.isDocument,
    ?_⟩
  · rw [hcount]
    exact hok₂
  · rw [hflat f₁ o₁ (ho.follows hν) hts₁, hflat f₂ o₂ ((SameNames.refl o₂).follows hν) hts₂, hsame]

/-- The document of `mediaStore` with its at-rule in capitals. -/
def loudTrees : List (Tree NodeId) :=
  [.branch 1 (.rule ["a"]) [.branch 2 (.atRule "MEDIA" "print")
    [.leaf 3 (.raw "x"), .branch 4 (.rule ["b"]) [.leaf 5 (.raw "y")]]]]

def loudStore : Store :=
  ⟨#[some (.root [1]), some (.rule ["a"] [2] (some 0)),
    some (.atRule "MEDIA" "print" (some [3, 4]) (some 1)), some (.leaf (.raw "x")),
    some (.rule ["b"] [5] (some 2)), some (.leaf (.raw "y"))]⟩

theorem loudStore_isDocument : loudStore.IsDocument 0 loudTrees :=
  ⟨rfl, ⟨⟨rfl, ⟨rfl, rfl, ⟨rfl, rfl, trivial⟩, trivial⟩, trivial⟩, trivial⟩, by decide⟩

theorem flatten_loudStore :
    ∃ st s₁ ts₁ log₁ s₂ ts₂ log₂,
      flatten (extended {} [.bubble "phone", .unwrap "page"]) 0 ⟨mediaStore, #[], ()⟩ =
        .ok st ⟨s₁, log₁, ()⟩ ∧ s₁.IsDocument 0 ts₁ ∧
      flatten (extended {} [.unwrap "PAGE", .bubble "@phone", .bubble "phone"]) 0
        ⟨loudStore, #[], ()⟩ = .ok st ⟨s₂, log₂, ()⟩ ∧ s₂.IsDocument 0 ts₂ ∧
      respellAll (fun n => (origin 6 n).map id) small ts₁ =
        respellAll (fun n => (origin 6 n).map id) small ts₂ := by
  have hname : small "media" = small "MEDIA" := by decide
  have hsame : respellAll id small mediaTrees = respellAll id small loudTrees := by
    simp only [mediaTrees, loudTrees, respellAll, respell, hname]
  obtain ⟨hruns, hadded⟩ := flatten_ignores_letter_case (ρ := Unit) mediaStore_isDocument
    loudStore_isDocument sameName_small hsame
  have hphone : Rewritten "phone" "@phone" := .marked (by decide)
  have hpage : Rewritten "page" "PAGE" := .letters (by decide)
  refine hruns _ _ (hadded {} _ _ ⟨?_, ?_⟩) #[] ()
  · simp only [List.forall_mem_cons]
    exact ⟨⟨.bubble "@phone", by simp, .bubble hphone⟩, ⟨.unwrap "PAGE", by simp, .unwrap hpage⟩,
      by simp⟩
  · simp only [List.forall_mem_cons]
    exact ⟨⟨.unwrap "page", by simp, .unwrap hpage.symm⟩,
      ⟨.bubble "phone", by simp, .bubble hphone.symm⟩,
      ⟨.bubble "phone", by simp, .bubble (.letters (sameName_refl _))⟩, by simp⟩

end Pass

end Unnest
