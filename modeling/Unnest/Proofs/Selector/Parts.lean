import Unnest.Selector.Nesting
import Unnest.Proofs.Selector.Lists

/-! Selectors as they are put together: from letters, strings and groups in brackets or parentheses,
where a backslash may stand in front of a letter. The scan reads from the text which commas part
selectors and which ampersands stand for the parent, as the parts say it. It has no notion of a
backslash, so what stands behind one is read as if it stood there alone. The parts are followed where
that makes no difference: the text is also one of other parts, in which a backslash is a letter like
any other, and the same commas and ampersands count in both. -/

namespace Unnest.Selector

open Text

variable {s : Scan} {l m : List Char}

/-! What a scan reads. -/

/-- A character, or what it stands for if it is selector syntax. -/
inductive Sign where
  | char (c : Char)
  | separator
  | parent
deriving DecidableEq

/-- What is put in for a sign. -/
def Sign.fill (parent : List Char) : Sign → List Char
  | .char c => [c]
  | .separator => [',']
  | .parent => parent

namespace Scan

def sign (s : Scan) (c : Char) : Sign :=
  if s.separates c then .separator else if s.refersHere c then .parent else .char c

def signs (s : Scan) : List Char → List Sign
  | [] => []
  | c :: l => s.sign c :: (s.next c).signs l

theorem signs_append (s : Scan) (l m : List Char) :
    s.signs (l ++ m) = s.signs l ++ (s.after l).signs m := by
  induction l generalizing s with
  | nil => rfl
  | cons c l ih => rw [List.cons_append, signs, signs, ih, after_cons, List.cons_append]

theorem sign_cases (s : Scan) (c : Char) :
    (s.sign c = .separator ∧ s.separates c = true ∧ s.refersHere c = false ∧ c = ',') ∨
      (s.sign c = .parent ∧ s.separates c = false ∧ s.refersHere c = true) ∨
      (s.sign c = .char c ∧ s.separates c = false ∧ s.refersHere c = false) := by
  unfold sign
  cases hsep : s.separates c with
  | true =>
    obtain rfl := eq_comma_of_separates hsep
    simp [refersHere]
  | false => cases s.refersHere c <;> simp

theorem fill_sign (parent : List Char) (s : Scan) (c : Char) :
    (s.sign c).fill parent = if s.refersHere c then parent else [c] := by
  rcases s.sign_cases c with ⟨hsign, -, hhere, rfl⟩ | ⟨hsign, -, hhere⟩ | ⟨hsign, -, hhere⟩ <;>
    simp [hsign, hhere, Sign.fill]

theorem separator_mem_signs : Sign.separator ∈ s.signs l ↔ meets separates s l = true := by
  induction l generalizing s with
  | nil => simp [signs, meets]
  | cons c l ih =>
    rw [signs, List.mem_cons, ih, meets, Bool.or_eq_true]
    rcases s.sign_cases c with ⟨hsign, hsep, -⟩ | ⟨hsign, hsep, -⟩ | ⟨hsign, hsep, -⟩ <;>
      simp [hsign, hsep]

theorem parent_mem_signs : Sign.parent ∈ s.signs l ↔ refers s l = true := by
  induction l generalizing s with
  | nil => simp [signs, refers]
  | cons c l ih =>
    rw [signs, List.mem_cons, ih, refers, Bool.or_eq_true]
    rcases s.sign_cases c with ⟨hsign, -, hhere, -⟩ | ⟨hsign, -, hhere⟩ | ⟨hsign, -, hhere⟩ <;>
      simp [hsign, hhere]

theorem flatMap_fill_signs (parent : List Char) (s : Scan) (l : List Char) :
    (s.signs l).flatMap (Sign.fill parent) = fill parent s l := by
  induction l generalizing s with
  | nil => rfl
  | cons c l ih => rw [signs, List.flatMap_cons, ih, fill_sign, fill]

end Scan

/-! Parts. -/

/-- A character as it is, or behind a backslash. -/
inductive Letter where
  | plain (c : Char)
  | escaped (c : Char)
deriving DecidableEq

def Letter.text : Letter → List Char
  | .plain c => [c]
  | .escaped c => ['\\', c]

inductive Bracket where
  | square
  | round
deriving DecidableEq

def Bracket.opener : Bracket → Char
  | .square => '['
  | .round => '('

def Bracket.closer : Bracket → Char
  | .square => ']'
  | .round => ')'

inductive Part where
  | letter (l : Letter)
  | string (quote : Char) (letters : List Letter)
  | group (b : Bracket) (parts : List Part)

def lettersText (ls : List Letter) : List Char := ls.flatMap Letter.text

/-- Whether a letter may stand where the characters of `taken` mean something else. -/
def Letter.fits (taken : List Char) : Letter → Bool
  | .plain c => !(('\\' :: taken).contains c)
  | .escaped _ => true

namespace Part

mutual

def text : Part → List Char
  | .letter l => l.text
  | .string q ls => q :: (lettersText ls ++ [q])
  | .group b ps => b.opener :: (textAll ps ++ [b.closer])

def textAll : List Part → List Char
  | [] => []
  | p :: ps => p.text ++ textAll ps

end

mutual

/-- Strings begin with a quote and go on to the next one that stands alone; all else that opens or
closes belongs to a group. -/
def fits : Part → Bool
  | .letter l => l.fits ['"', '\x27', '[', ']', '(', ')']
  | .string q ls => isQuote q && ls.all (Letter.fits [q])
  | .group _ ps => fitsAll ps

def fitsAll : List Part → Bool
  | [] => true
  | p :: ps => p.fits && fitsAll ps

end

/-- The sign of a character, given whether there are brackets or parentheses around it. -/
def sign (brackets parens : Bool) (c : Char) : Sign :=
  if brackets then .char c
  else if c = '&' then .parent
  else if c = ',' ∧ parens = false then .separator
  else .char c

mutual

/-- What the parts stand for. Commas and ampersands in strings and brackets stand for themselves;
`hides` says whether those behind a backslash do so, too. -/
def signs (hides brackets parens : Bool) : Part → List Sign
  | .letter (.plain c) => [sign brackets parens c]
  | .letter (.escaped c) => [.char '\\', if hides then .char c else sign brackets parens c]
  | .string q ls => .char q :: ((lettersText ls).map .char ++ [.char q])
  | .group .square ps => .char '[' :: (signsAll hides true parens ps ++ [.char ']'])
  | .group .round ps => .char '(' :: (signsAll hides brackets true ps ++ [.char ')'])

def signsAll (hides brackets parens : Bool) : List Part → List Sign
  | [] => []
  | p :: ps => p.signs hides brackets parens ++ signsAll hides brackets parens ps

end

/-- Whether a character opens nothing, and closes nothing that is open; `awaited` are the closers of
the groups around it. -/
def neutral (awaited : List Char) (c : Char) : Bool :=
  !isQuote c && c != '[' && c != '(' && !awaited.contains c

mutual

/-- Whether the parts are those of their text if a backslash is a character like any other. -/
def blind (awaited : List Char) : Part → Bool
  | .letter l => l.text.all (neutral awaited)
  | .string q ls => isQuote q && !(lettersText ls).contains q
  | .group b ps => blindAll (b.closer :: awaited) ps

def blindAll (awaited : List Char) : List Part → Bool
  | [] => true
  | p :: ps => p.blind awaited && blindAll awaited ps

end

end Part

/-! The scan of parts. -/

/-- The scan stands outside strings, and all the groups it is in wait for their closers. -/
structure Awaits (awaited : List Char) (s : Scan) : Prop where
  quote : s.quote = none
  brackets : ']' ∉ awaited → s.brackets = 0
  parens : ')' ∉ awaited → s.parens = 0

variable {awaited : List Char}

theorem awaits_start : Awaits [] .start := ⟨rfl, fun _ => rfl, fun _ => rfl⟩

theorem Scan.sign_eq (h : s.quote = none) (c : Char) :
    s.sign c = Part.sign (s.brackets != 0) (s.parens != 0) c := by
  obtain ⟨q, b, k⟩ := s
  obtain rfl : q = none := h
  unfold sign Part.sign
  by_cases hcomma : c = ','
  · subst hcomma
    by_cases hb : b = 0 <;> by_cases hk : k = 0 <;>
      simp [separates, refersHere, counts, isQuote, hb, hk]
  · by_cases hparent : c = '&'
    · subst hparent
      by_cases hb : b = 0 <;> simp [separates, refersHere, counts, isQuote, hb]
    · simp [separates, refersHere, hcomma, hparent]

theorem Awaits.next_eq (h : Awaits awaited s) {c : Char} (hc : Part.neutral awaited c = true) :
    s.next c = s := by
  obtain ⟨q, b, k⟩ := s
  obtain rfl : q = none := h.quote
  simp only [Part.neutral, Bool.and_eq_true, Bool.not_eq_true', bne_iff_ne] at hc
  obtain ⟨⟨⟨hquote, hsquare⟩, hround⟩, hclose⟩ := hc
  have hclose : c ∉ awaited := by simpa using hclose
  unfold Scan.next
  simp only [hquote, Bool.false_eq_true, if_false, hsquare, hround]
  split_ifs with hb hk
  · subst hb
    have hzero : b = 0 := h.brackets hclose
    simp [hzero]
  · subst hk
    have hzero : k = 0 := h.parens hclose
    simp [hzero]
  · rfl

/-- In a string nothing but its quote means anything. -/
theorem Scan.signs_of_quote {q : Char} (h : s.quote = some q) (hl : q ∉ l) :
    s.after l = s ∧ s.signs l = l.map .char := by
  induction l with
  | nil => exact ⟨rfl, rfl⟩
  | cons c l ih =>
    rw [List.mem_cons, not_or] at hl
    have hnext : s.next c = s := by
      simp [next, h, Ne.symm hl.1]
    have hsign : s.sign c = .char c := by
      simp [sign, separates, refersHere, counts, h]
    rw [after_cons, signs, hnext, hsign, (ih hl.2).1, (ih hl.2).2]
    exact ⟨rfl, rfl⟩

/-- A group is read with its bracket open, and closed again. -/
theorem Awaits.scan_group (h : Awaits awaited s) (b : Bracket) :
    Awaits (b.closer :: awaited) (s.next b.opener) ∧
      ((s.next b.opener).brackets != 0) = (b == .square || s.brackets != 0) ∧
      ((s.next b.opener).parens != 0) = (b == .round || s.parens != 0) ∧
      (s.next b.opener).next b.closer = s := by
  obtain ⟨q, n, k⟩ := s
  obtain rfl : q = none := h.quote
  cases b with
  | square =>
    have hnext : (Scan.mk none n k).next '[' = ⟨none, n + 1, k⟩ := by simp [Scan.next, isQuote]
    simp only [Bracket.opener, Bracket.closer, hnext]
    refine ⟨⟨rfl, by simp, fun hk => h.parens fun hm => hk (List.mem_cons_of_mem _ hm)⟩, ?_⟩
    simp [Scan.next, isQuote]
  | round =>
    have hnext : (Scan.mk none n k).next '(' = ⟨none, n, k + 1⟩ := by simp [Scan.next, isQuote]
    simp only [Bracket.opener, Bracket.closer, hnext]
    refine ⟨⟨rfl, fun hn => h.brackets fun hm => hn (List.mem_cons_of_mem _ hm), by simp⟩, ?_⟩
    simp [Scan.next, isQuote]

theorem Awaits.scan_letter (h : Awaits awaited s) {x : Letter}
    (hblind : (Part.letter x).blind awaited = true) :
    s.after x.text = s ∧
      s.signs x.text = (Part.letter x).signs false (s.brackets != 0) (s.parens != 0) := by
  have hall : ∀ c ∈ x.text, s.next c = s := fun c hc => h.next_eq (List.all_eq_true.1 hblind c hc)
  cases x with
  | plain c =>
    rw [Letter.text, Scan.after_cons, Scan.signs, hall c (by simp [Letter.text]),
      Scan.sign_eq h.quote]
    exact ⟨rfl, rfl⟩
  | escaped c =>
    have hslash : s.next '\\' = s := hall '\\' (by simp [Letter.text])
    have hnext : s.next c = s := hall c (by simp [Letter.text])
    simp only [Letter.text, Scan.after_cons, Scan.signs, hslash, hnext, Scan.sign_eq h.quote]
    refine ⟨rfl, ?_⟩
    simp [Part.signs, Part.sign]

theorem Awaits.scan_string (h : Awaits awaited s) {q : Char} {ls : List Letter}
    (hblind : (Part.string q ls).blind awaited = true) :
    s.after (Part.string q ls).text = s ∧ s.signs (Part.string q ls).text =
      (Part.string q ls).signs false (s.brackets != 0) (s.parens != 0) := by
  obtain ⟨hquote, hletters⟩ := Bool.and_eq_true_iff.1 hblind
  have hmem : q ∉ lettersText ls := by simpa using hletters
  have hopen : s.next q = { s with quote := some q } := by
    simp [Scan.next, h.quote, hquote]
  have hclose : (s.next q).next q = s := by
    rw [hopen]
    simp [Scan.next, ← h.quote]
  obtain ⟨hafter, hsigns⟩ := Scan.signs_of_quote (s := s.next q) (by rw [hopen]) hmem
  have hsign : ∀ t : Scan, t.sign q = .char q := by
    intro t
    have hne : q ≠ ',' ∧ q ≠ '&' := by
      constructor <;> rintro rfl <;> exact absurd hquote (by decide)
    simp [Scan.sign, Scan.separates, Scan.refersHere, hne.1, hne.2]
  rw [Part.text, Scan.after_cons, Scan.after_append, hafter, Scan.signs, Scan.signs_append, hafter,
    hsigns, hsign]
  refine ⟨hclose, ?_⟩
  rw [Scan.signs, hsign, Part.signs]
  rfl

namespace Part

mutual

/-- A part is read as it stands for, and leaves the scan as it was. -/
theorem scan_text : (p : Part) → ∀ {awaited : List Char} {s : Scan}, Awaits awaited s →
    p.blind awaited = true →
    s.after p.text = s ∧ s.signs p.text = p.signs false (s.brackets != 0) (s.parens != 0)
  | .letter _, _, _, h, hblind => h.scan_letter hblind
  | .string _ _, _, _, h, hblind => h.scan_string hblind
  | .group b ps, _, s, h, hblind => by
    obtain ⟨hinside, hbrackets, hparens, hback⟩ := h.scan_group b
    obtain ⟨hafter, hsigns⟩ := scan_textAll ps hinside hblind
    have hopener : s.sign b.opener = .char b.opener := by
      rw [Scan.sign_eq h.quote]
      cases b <;> simp [sign, Bracket.opener]
    have hcloser : (s.next b.opener).sign b.closer = .char b.closer := by
      rw [Scan.sign_eq hinside.quote]
      cases b <;> simp [sign, Bracket.closer]
    rw [text, Scan.after_cons, Scan.after_append, hafter, Scan.signs, Scan.signs_append, hafter,
      hsigns, hopener, hbrackets, hparens]
    refine ⟨hback, ?_⟩
    rw [Scan.signs, Scan.signs, hcloser]
    cases b <;> rfl

theorem scan_textAll : (ps : List Part) → ∀ {awaited : List Char} {s : Scan}, Awaits awaited s →
    blindAll awaited ps = true → s.after (textAll ps) = s ∧
      s.signs (textAll ps) = signsAll false (s.brackets != 0) (s.parens != 0) ps
  | [], _, _, _, _ => ⟨rfl, rfl⟩
  | p :: ps, _, _, h, hblind => by
    rw [blindAll, Bool.and_eq_true] at hblind
    obtain ⟨hafter, hsigns⟩ := scan_text p h hblind.1
    obtain ⟨hafters, hrest⟩ := scan_textAll ps h hblind.2
    rw [textAll, Scan.after_append, Scan.signs_append, hafter, hafters, hsigns, hrest, signsAll]
    exact ⟨rfl, rfl⟩

end

end Part

/-- A selector as it is put together. -/
def written (x : List Part) : String := String.ofList (Part.textAll x)

/-- What the parts of a selector stand for. -/
def meaning (hides : Bool) (x : List Part) : List Sign := Part.signsAll hides false false x

/-- Parts that the scan can follow: the text has parts that know no backslashes, maybe others than
these, and they give the same meaning to every comma and ampersand. -/
structure Followed (x : List Part) : Prop where
  fits : Part.fitsAll x = true
  read : ∃ y, Part.blindAll [] y = true ∧ Part.textAll y = Part.textAll x ∧
    meaning false y = meaning false x

/-- Where nothing behind a backslash opens or closes anything, the parts are followed as they are. -/
theorem Followed.of_blind {x : List Part} (hfits : Part.fitsAll x = true)
    (hblind : Part.blindAll [] x = true) : Followed x :=
  ⟨hfits, x, hblind, rfl, rfl⟩

theorem Followed.scan {x : List Part} (h : Followed x) :
    Scan.start.after (Part.textAll x) = .start ∧
      Scan.start.signs (Part.textAll x) = meaning false x := by
  obtain ⟨y, hblind, htext, hmeaning⟩ := h.read
  rw [← htext, ← hmeaning]
  exact Part.scan_textAll y awaits_start hblind

theorem Followed.membersOf {x : List Part} (h : Followed x)
    (hblank : trim (written x) ≠ "") (hsep : .separator ∉ meaning false x) :
    membersOf (Part.textAll x) = [trimChars (Part.textAll x)] := by
  apply membersOf_of_unseparated
  · rw [← h.scan.2, Scan.separator_mem_signs] at hsep
    simpa using hsep
  · intro hnil
    apply hblank
    rw [trim, written, String.toList_ofList, hnil]

/-- A list of selectors is read as they were put together if none of them is blank or has a separator
outside parentheses, and a parent is put in for each of their ampersands that stands for it. -/
theorem parts_followed :
    (∀ selectors : List (List Part), (∀ x ∈ selectors, Followed x ∧ trim (written x) ≠ "" ∧
        .separator ∉ meaning false x) →
      members (",".intercalate (selectors.map written)) =
        selectors.map fun x => trim (written x)) ∧
    ∀ (x : List Part) (parent : String), Followed x →
      substitute? (written x) parent =
        if .parent ∈ meaning false x then
          some (String.ofList ((meaning false x).flatMap (Sign.fill parent.toList)))
        else none := by
  constructor
  · intro selectors h
    have hcomma : ",".toList = [','] := rfl
    have hchars : membersOf (",".intercalate (selectors.map written)).toList =
        selectors.map fun x => trimChars (Part.textAll x) := by
      have hpairwise : (selectors.map Part.textAll).Pairwise fun l _ =>
          Scan.start.after l = .start := by
        rw [List.pairwise_map]
        exact List.pairwise_of_forall_mem_list fun x hx _ _ => (h x hx).1.scan.1
      have hwritten : (selectors.map written).map String.toList = selectors.map Part.textAll := by
        simp [written]
      rw [String.toList_intercalate, hwritten, hcomma,
        membersOf_intercalate (List.forall_mem_nil _) hpairwise, List.flatMap_map]
      calc selectors.flatMap (fun x => membersOf (Part.textAll x))
        _ = selectors.flatMap (fun x => [trimChars (Part.textAll x)]) :=
          List.flatMap_congr fun x hx => (h x hx).1.membersOf (h x hx).2.1 (h x hx).2.2
        _ = selectors.map fun x => trimChars (Part.textAll x) := List.flatMap_pure_eq_map _ _
    rw [members, hchars, List.map_map]
    simp [Function.comp_def, trim, written]
  · intro x parent h
    have hrefers : (.parent ∈ meaning false x) ↔ refers .start (Part.textAll x) = true := by
      rw [← h.scan.2, Scan.parent_mem_signs]
    rw [substitute?, written, String.toList_ofList, ← h.scan.2, Scan.flatMap_fill_signs, h.scan.2]
    simp only [hrefers]

/-- The first selector has a string with a bracket and a comma in a group of brackets, the second one
ampersands in parentheses, behind a backslash and in brackets, and the third one brackets behind
backslashes, which the scan takes for a group. -/
theorem parts_followed_nested :
    let first := [.letter (.plain 'a'), .group .square [.letter (.plain '='),
      .string '"' [.plain ']', .plain ',', .escaped '\x27']], .letter (.plain ' ')]
    let second := [.letter (.plain '&'), .group .round [.letter (.plain 'b'),
      .letter (.plain ','), .letter (.escaped '&')], .letter (.escaped 'n'),
      .group .square [.letter (.plain '&'), .letter (.escaped ','), .letter (.escaped ')')]]
    let third := [.letter (.plain 'w'), .letter (.escaped '['), .letter (.plain '1'),
      .letter (.escaped ']')]
    (∀ x ∈ [first, second, third],
      Followed x ∧ trim (written x) ≠ "" ∧ .separator ∉ meaning false x) ∧
      members "a[=\"],\\'\"] ,&(b,\\&)\\n[&\\,\\)],w\\[1\\]" =
        ["a[=\"],\\'\"]", "&(b,\\&)\\n[&\\,\\)]", "w\\[1\\]"] ∧
      substitute? "a[=\"],\\'\"] " "p" = none ∧
      substitute? "&(b,\\&)\\n[&\\,\\)]" "p" = some "p(b,\\p)\\n[&\\,\\)]" ∧
      substitute? "w\\[1\\]" "p" = none := by
  intro first second third
  have hfirst : Followed first := .of_blind (by decide +kernel) (by decide +kernel)
  have hsecond : Followed second := .of_blind (by decide +kernel) (by decide +kernel)
  let third' : List Part := [.letter (.plain 'w'), .letter (.plain '\\'), .group .square
    [.letter (.plain '1'), .letter (.plain '\\')]]
  have hthird : Followed third :=
    ⟨by decide +kernel, third', by decide +kernel, by decide +kernel, by decide +kernel⟩
  have hmeaning : ∀ x ∈ [first, second, third],
      trim (written x) ≠ "" ∧ .separator ∉ meaning false x := by
    decide +kernel
  have hall : ∀ x ∈ [first, second, third],
      Followed x ∧ trim (written x) ≠ "" ∧ .separator ∉ meaning false x := by
    refine List.forall_mem_cons.2 ⟨⟨hfirst, hmeaning first (by simp)⟩, ?_⟩
    refine List.forall_mem_cons.2 ⟨⟨hsecond, hmeaning second (by simp)⟩, ?_⟩
    exact List.forall_mem_singleton.2 ⟨hthird, hmeaning third (by simp)⟩
  refine ⟨hall, ?_, ?_, ?_, ?_⟩
  · exact (parts_followed.1 [first, second, third] hall).trans (by decide +kernel)
  · exact (parts_followed.2 first "p" hfirst).trans (by decide +kernel)
  · exact (parts_followed.2 second "p" hsecond).trans (by decide +kernel)
  · exact (parts_followed.2 third "p" hthird).trans (by decide +kernel)

/-- A backslash hides nothing from the scan: a comma or ampersand behind it counts, and what opens or
closes does so behind it, too. -/
theorem escapes_not_followed :
    (∀ x : List Part, x ∈ [
        [.letter (.plain 'a'), .letter (.escaped ','), .letter (.plain 'b')],
        [.letter (.escaped '"')], [.letter (.escaped '[')], [.letter (.escaped '(')],
        [.group .round [.letter (.escaped ')'), .letter (.plain ','), .letter (.plain 'a')]],
        [.group .square [.letter (.escaped ']'), .letter (.plain ','), .letter (.plain 'a')]],
        [.string '"' [.escaped '"', .plain ',']]] →
      let selectors := [x, [.letter (.plain 'c')]]
      Part.fitsAll x = true ∧ trim (written x) ≠ "" ∧ .separator ∉ meaning true x ∧
        members (",".intercalate (selectors.map written)) ≠
          selectors.map fun x => trim (written x)) ∧
    let x := [.letter (.escaped '&')]
    Part.fitsAll x = true ∧ .parent ∉ meaning true x ∧ substitute? (written x) "p" ≠ none := by
  decide +kernel

end Unnest.Selector
