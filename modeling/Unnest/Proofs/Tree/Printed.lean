import Mathlib.Data.List.Basic
import Unnest.Tree.Print
import Unnest.Proofs.Text.Trim

/-! What the text of a document says. Each line says one thing: a leaf, the header of a node with the
kind of its block, or the end of a block. The end of a line tells the kinds apart but for headers
of statements, which begin with an `@`. So the lines tell the tree, and the text tells the lines, as
long as no text in the tree runs over a line or looks like what is printed around it. -/

namespace Unnest

open Text Selector

/-! Trees whose text can be read back. -/

/-- A name of a property or at-rule. -/
def isName (s : String) : Bool :=
  !s.isEmpty && s.toList.all fun c => c.isAlphanum || c == '-'

/-- Text that stands in front of a block or a semicolon. -/
def isInline (s : String) : Bool :=
  trim s == s && s.toList.all fun c => c != '\n' && c != '\x7b' && c != '\x7d' && c != ';'

def isSelector (s : String) : Bool :=
  isInline s && !s.isEmpty && !s.toList.contains ',' && s.toList.head? != some '@' &&
    !("/*".toList.isPrefixOf s.toList)

def Declaration.plain (d : Declaration) : Bool :=
  isName d.property && isInline d.value && !"!important".toList.isSuffixOf d.value.toList

/-- Text that is kept as it is may say anything, so it is never plain. -/
def Leaf.plain : Leaf → Bool
  | .declaration d => d.plain
  | .comment t => trim t == t && !t.toList.contains '\n'
  | .raw _ => false

def Head.plain : Head → Bool
  | .root => false
  | .rule s => !s.isEmpty && s.all isSelector
  | .atRule n p => isName n && isInline p

namespace Tree

variable {α β : Type}

mutual

/-- Whether all that stands in the tree is plain; a root is not. -/
def plain : Tree α → Bool
  | .leaf _ l => l.plain
  | .statement _ n p => (Head.atRule n p).plain
  | .branch _ h ts => h.plain && plainAll ts

def plainAll : List (Tree α) → Bool
  | [] => true
  | t :: ts => t.plain && plainAll ts

end

end Tree

/-! Lines. -/

inductive Block where
  | none
  | empty
  | filled
deriving DecidableEq

/-- What a line says. -/
inductive Clause where
  | leaf (l : Leaf)
  | header (h : Head) (block : Block)
  | close
deriving DecidableEq

def Head.text : Head → String
  | .root => ""
  | .rule s => listText s
  | .atRule n p => atRuleHeader n p

def Block.text : Block → String
  | .none => ";"
  | .empty => " \x7b\x7d"
  | .filled => " \x7b"

def Clause.text : Clause → String
  | .leaf l => l.text
  | .header h b => h.text ++ b.text
  | .close => "\x7d"

/-- Only an at-rule may have no block. -/
def Clause.plain : Clause → Bool
  | .leaf l => l.plain
  | .header h b => h.plain && (!h.isRule || b != .none)
  | .close => true

namespace Tree

variable {α β : Type} {d : Nat}

mutual

/-- What the lines of a tree say, each with its depth. -/
def clauses (d : Nat) : Tree α → List (Nat × Clause)
  | .leaf _ l => [(d, .leaf l)]
  | .statement _ n p => [(d, .header (.atRule n p) .none)]
  | .branch _ .root ts => clausesAll d ts
  | .branch _ (.rule s) ts => blockClauses d (.rule s) ts
  | .branch _ (.atRule n p) ts => blockClauses d (.atRule n p) ts

def blockClauses (d : Nat) (h : Head) : List (Tree α) → List (Nat × Clause)
  | [] => [(d, .header h .empty)]
  | t :: ts =>
    (d, .header h .filled) :: (t.clauses (d + 1) ++ clausesAll (d + 1) ts) ++ [(d, .close)]

def clausesAll (d : Nat) : List (Tree α) → List (Nat × Clause)
  | [] => []
  | t :: ts => t.clauses d ++ clausesAll d ts

end

mutual

theorem lines_eq (d : Nat) : (t : Tree α) →
    t.lines d = (t.clauses d).map fun c => ⟨c.1, c.2.text⟩
  | .leaf _ _ => rfl
  | .statement _ _ _ => rfl
  | .branch _ .root ts => linesAll_eq d ts
  | .branch _ (.rule s) ts => blockLines_eq d (.rule s) ts
  | .branch _ (.atRule n p) ts => blockLines_eq d (.atRule n p) ts

theorem blockLines_eq (d : Nat) (h : Head) : (ts : List (Tree α)) →
    blockLines d h.text ts = (blockClauses d h ts).map fun c => ⟨c.1, c.2.text⟩
  | [] => rfl
  | t :: ts => by
    rw [blockLines, blockClauses, lines_eq (d + 1) t, linesAll_eq (d + 1) ts]
    simp [Clause.text, Block.text]

theorem linesAll_eq (d : Nat) : (ts : List (Tree α)) →
    linesAll d ts = (clausesAll d ts).map fun c => ⟨c.1, c.2.text⟩
  | [] => rfl
  | t :: ts => by rw [linesAll, clausesAll, lines_eq d t, linesAll_eq d ts, List.map_append]

end

mutual

theorem plain_of_mem_clauses : (t : Tree α) → t.plain = true →
    ∀ d, ∀ c ∈ t.clauses d, c.2.plain = true
  | .leaf _ _, h, _, c, hc => by
    rw [List.mem_singleton.1 hc]
    exact h
  | .statement _ _ _, h, _, c, hc => by
    rw [List.mem_singleton.1 hc]
    exact Bool.and_eq_true_iff.2 ⟨h, rfl⟩
  | .branch _ .root _, h, _, _, _ => by simp [plain, Head.plain] at h
  | .branch _ (.rule _) ts, h, d, c, hc => plain_of_mem_blockClauses _ ts h d c hc
  | .branch _ (.atRule _ _) ts, h, d, c, hc => plain_of_mem_blockClauses _ ts h d c hc

theorem plain_of_mem_blockClauses (h : Head) : (ts : List (Tree α)) →
    (h.plain && plainAll ts) = true → ∀ d, ∀ c ∈ blockClauses d h ts, c.2.plain = true
  | [], hh, d, c, hc => by
    rw [List.mem_singleton.1 hc]
    simpa [Clause.plain, plainAll] using hh
  | t :: ts, hh, d, c, hc => by
    simp only [plainAll, Bool.and_eq_true] at hh
    simp only [blockClauses, List.cons_append, List.mem_cons, List.mem_append, List.not_mem_nil,
      or_false] at hc
    rcases hc with rfl | (hc | hc) | rfl
    · simp [Clause.plain, hh.1]
    · exact plain_of_mem_clauses t hh.2.1 (d + 1) c hc
    · exact plain_of_mem_clausesAll ts hh.2.2 (d + 1) c hc
    · rfl

theorem plain_of_mem_clausesAll : (ts : List (Tree α)) → plainAll ts = true →
    ∀ d, ∀ c ∈ clausesAll d ts, c.2.plain = true
  | [], _, _, _, hc => absurd hc List.not_mem_nil
  | t :: ts, h, d, c, hc => by
    obtain ⟨ht, hts⟩ := Bool.and_eq_true_iff.1 h
    rcases List.mem_append.1 hc with hc | hc
    · exact plain_of_mem_clauses t ht d c hc
    · exact plain_of_mem_clausesAll ts hts d c hc

end

end Tree

/-! Every line tells what it says. -/

/-- A list is cut at the first place where `c` stands. -/
theorem append_cons_inj {α : Type} {c : α} {l l' m m' : List α} (hl : c ∉ l) (hl' : c ∉ l')
    (h : l ++ c :: m = l' ++ c :: m') : l = l' ∧ m = m' := by
  rcases List.append_eq_append_iff.1 h with ⟨a, rfl, ha⟩ | ⟨a, rfl, ha⟩
  · cases a with
    | nil => simpa using ha
    | cons d a =>
      obtain ⟨rfl, -⟩ := List.cons.inj ha
      simp at hl'
  · cases a with
    | nil => simpa using ha.symm
    | cons d a =>
      obtain ⟨rfl, -⟩ := List.cons.inj ha
      simp at hl

theorem isName_not_mem {s : String} (h : isName s = true) {c : Char}
    (hc : (c.isAlphanum || c == '-') = false) : c ∉ s.toList := by
  intro hmem
  have hall := List.all_eq_true.1 (Bool.and_eq_true_iff.1 h).2 c hmem
  rw [hc] at hall
  cases hall

theorem Declaration.toList_text (d : Declaration) : d.text.toList =
    d.property.toList ++ ':' :: ' ' ::
      (d.value.toList ++ if d.important then " !important;".toList else [';']) := by
  rw [Declaration.text]
  split <;> simp

theorem Declaration.text_inj {d d' : Declaration} (h : d.plain = true) (h' : d'.plain = true)
    (htext : d.text = d'.text) : d = d' := by
  obtain ⟨p, v, i⟩ := d
  obtain ⟨p', v', i'⟩ := d'
  simp only [plain, Bool.and_eq_true, Bool.not_eq_true'] at h h'
  have hchars := congrArg String.toList htext
  rw [toList_text, toList_text] at hchars
  obtain ⟨hproperty, hrest⟩ := append_cons_inj (isName_not_mem h.1.1 (by decide))
    (isName_not_mem h'.1.1 (by decide)) hchars
  obtain rfl := String.toList_inj.1 hproperty
  have hvalue := (List.cons.inj hrest).2
  have hflag : " !important;".toList = [' '] ++ "!important".toList ++ [';'] := rfl
  -- the value of the other one would end with the flag
  have hends : ∀ x y : List Char, x ++ [';'] = y ++ " !important;".toList →
      "!important".toList.isSuffixOf x = true := by
    intro x y hxy
    rw [hflag, ← List.append_assoc, List.append_left_inj, ← List.append_assoc] at hxy
    rw [hxy, List.isSuffixOf_iff_suffix]
    exact List.suffix_append _ _
  cases i <;> cases i' <;> simp only [Bool.false_eq_true, if_false, if_true] at hvalue
  · rw [String.toList_inj.1 (List.append_left_inj _ |>.1 hvalue)]
  · rw [hends _ _ hvalue] at h
    simp at h
  · rw [hends _ _ hvalue.symm] at h'
    simp at h'
  · rw [String.toList_inj.1 (List.append_left_inj _ |>.1 hvalue)]

theorem toList_atRuleHeader (n p : String) :
    (atRuleHeader n p).toList = '@' :: (n.toList ++ if p.isEmpty then [] else ' ' :: p.toList) := by
  rw [atRuleHeader]
  split <;> simp

theorem atRuleHeader_inj {n n' p p' : String} (h : isName n = true) (h' : isName n' = true)
    (htext : atRuleHeader n p = atRuleHeader n' p') : n = n' ∧ p = p' := by
  have hchars := congrArg String.toList htext
  rw [toList_atRuleHeader, toList_atRuleHeader] at hchars
  have hrest := (List.cons.inj hchars).2
  have hblank : ' ' ∉ n.toList := isName_not_mem h (by decide)
  have hblank' : ' ' ∉ n'.toList := isName_not_mem h' (by decide)
  cases hp : p.isEmpty <;> cases hp' : p'.isEmpty <;>
    simp only [hp, hp', Bool.false_eq_true, if_false, if_true, List.append_nil] at hrest
  · obtain ⟨hn, hparams⟩ := append_cons_inj hblank hblank' hrest
    exact ⟨String.toList_inj.1 hn, String.toList_inj.1 hparams⟩
  · rw [← hrest] at hblank'
    simp at hblank'
  · rw [hrest] at hblank
    simp at hblank
  · rw [String.isEmpty_iff.1 hp, String.isEmpty_iff.1 hp']
    exact ⟨String.toList_inj.1 hrest, rfl⟩

theorem isSelector_comma {x : String} (h : isSelector x = true) : ',' ∉ x.toList := by
  simp only [isSelector, Bool.and_eq_true, Bool.not_eq_true'] at h
  simpa using h.1.1.2

theorem listText_inj {r r' : List String} (hr : r ≠ []) (hr' : r' ≠ [])
    (h : ∀ x ∈ r, isSelector x = true) (h' : ∀ x ∈ r', isSelector x = true)
    (htext : listText r = listText r') : r = r' := by
  have hcomma : ", ".toList = [',', ' '] := rfl
  have hchars := congrArg String.toList htext
  rw [listText, listText, String.toList_intercalate, String.toList_intercalate, hcomma] at hchars
  clear htext
  induction r generalizing r' with
  | nil => exact absurd rfl hr
  | cons x r ih =>
    obtain ⟨hx, hrest⟩ := List.forall_mem_cons.1 h
    obtain ⟨y, r', rfl⟩ := List.exists_cons_of_ne_nil hr'
    obtain ⟨hy, hrest'⟩ := List.forall_mem_cons.1 h'
    have hxcomma := isSelector_comma hx
    have hycomma := isSelector_comma hy
    cases r with
    | nil =>
      cases r' with
      | nil => simpa [String.toList_inj] using hchars
      | cons z r' =>
        rw [List.map_singleton, List.intercalate_singleton] at hchars
        rw [hchars] at hxcomma
        simp [List.intercalate_cons_cons] at hxcomma
    | cons w r =>
      cases r' with
      | nil =>
        rw [List.map_singleton, List.intercalate_singleton] at hchars
        rw [← hchars] at hycomma
        simp [List.intercalate_cons_cons] at hycomma
      | cons z r' =>
        simp only [List.map_cons, List.intercalate_cons_cons, List.append_assoc,
          List.cons_append, List.nil_append] at hchars
        obtain ⟨hfirst, hbehind⟩ := append_cons_inj hxcomma hycomma hchars
        have htail : w :: r = z :: r' := by
          apply ih (by simp) (by simp) hrest hrest'
          simpa [List.intercalate_cons_cons] using (List.cons.inj hbehind).2
        rw [String.toList_inj.1 hfirst, htail]

/-- The text begins with `c`, which is not blank. -/
def Begins (s : String) (c : Char) : Prop := s.toList.head? = some c ∧ isBlank c = false

theorem Begins.append {s : String} {c : Char} (h : Begins s c) (t : String) : Begins (s ++ t) c := by
  refine ⟨?_, h.2⟩
  rw [String.toList_append, List.head?_append, h.1, Option.some_or]

theorem Begins.unique {s : String} {c c' : Char} (h : Begins s c) (h' : Begins s c') : c = c' :=
  Option.some.inj (h.1.symm.trans h'.1)

theorem isBlank_of_isAlphanum {c : Char} (h : (c.isAlphanum || c == '-') = true) :
    isBlank c = false := by
  -- letters and digits are three ranges of the ASCII characters
  change (((decide (c.val ≥ 'A'.val ∧ c.val ≤ 'Z'.val) ||
    (decide (c.val ≥ 'a'.val) && decide (c.val ≤ 'z'.val))) ||
    (decide (c.val ≥ '0'.val) && decide (c.val ≤ '9'.val))) || c == '-') = true at h
  simp only [Bool.or_eq_true, Bool.and_eq_true, decide_eq_true_eq, beq_iff_eq, ge_iff_le,
    UInt32.le_iff_toNat_le] at h
  have hrange : ∀ {low high : Nat}, 33 ≤ low → high ≤ 126 → low ≤ c.toNat ∧ c.toNat ≤ high →
      isBlank c = false := fun hlow hhigh hc =>
    isBlank_eq_false (Nat.le_trans hlow hc.1) (Nat.le_trans hc.2 hhigh)
  rcases h with ((h | h) | h) | rfl
  · exact hrange (by decide) (by decide) h
  · exact hrange (by decide) (by decide) h
  · exact hrange (by decide) (by decide) h
  · decide

theorem exists_begins_of_isName {s : String} (h : isName s = true) :
    ∃ c, Begins s c ∧ c ≠ '@' := by
  obtain ⟨hne, hall⟩ := Bool.and_eq_true_iff.1 h
  have hnil : s.toList ≠ [] := by simpa using hne
  obtain ⟨c, l, hl⟩ := List.exists_cons_of_ne_nil hnil
  have hc := List.all_eq_true.1 hall c (by rw [hl]; exact List.mem_cons_self)
  refine ⟨c, ⟨by rw [hl]; rfl, isBlank_of_isAlphanum hc⟩, ?_⟩
  rintro rfl
  exact absurd hc (by decide)

theorem exists_begins_of_isSelector {s : String} (h : isSelector s = true) :
    ∃ c, Begins s c ∧ c ≠ '@' := by
  simp only [isSelector, isInline, Bool.and_eq_true, beq_iff_eq, Bool.not_eq_true',
    bne_iff_ne] at h
  obtain ⟨⟨⟨⟨⟨htrim, -⟩, hne⟩, -⟩, hat⟩, -⟩ := h
  have hnil : s.toList ≠ [] := by simpa using hne
  obtain ⟨c, l, hl⟩ := List.exists_cons_of_ne_nil hnil
  have htrimmed : Trimmed s.toList := by rw [← trimChars_eq_self_iff, ← toList_trim, htrim]
  rw [hl] at hat htrimmed
  exact ⟨c, ⟨by rw [hl]; rfl, htrimmed.1 c rfl⟩, fun hc => hat (congrArg some hc)⟩

theorem Head.exists_begins {h : Head} (hplain : h.plain = true) :
    ∃ c, Begins h.text c ∧ (c = '@' ↔ h.isRule = false) := by
  cases h with
  | root => simp [plain] at hplain
  | rule s =>
    obtain ⟨hne, hall⟩ := Bool.and_eq_true_iff.1 hplain
    cases s with
    | nil => simp at hne
    | cons x r =>
      obtain ⟨c, hc, hat⟩ := exists_begins_of_isSelector (List.all_eq_true.1 hall x (by simp))
      refine ⟨c, ?_, by simp [hat, isRule]⟩
      cases r with
      | nil => simpa [text, listText] using hc
      | cons y r =>
        rw [text, listText, String.intercalate_cons_cons, String.append_assoc]
        exact hc.append _
  | atRule n p =>
    refine ⟨'@', ⟨?_, by decide⟩, by simp [isRule]⟩
    rw [text, toList_atRuleHeader]
    rfl

theorem Head.text_inj {h h' : Head} (hplain : h.plain = true) (hplain' : h'.plain = true)
    (htext : h.text = h'.text) : h = h' := by
  obtain ⟨c, hc, hrule⟩ := Head.exists_begins hplain
  obtain ⟨c', hc', hrule'⟩ := Head.exists_begins hplain'
  rw [← htext] at hc'
  obtain rfl := hc.unique hc'
  have hsame := hrule.symm.trans hrule'
  cases h with
  | root => simp [plain] at hplain
  | rule s =>
    cases h' with
    | root => simp [plain] at hplain'
    | rule s' =>
      simp only [plain, Bool.and_eq_true, Bool.not_eq_true', List.isEmpty_eq_false_iff,
        List.all_eq_true] at hplain hplain'
      rw [listText_inj hplain.1 hplain'.1 hplain.2 hplain'.2 htext]
    | atRule n p => simp [isRule] at hsame
  | atRule n p =>
    cases h' with
    | root => simp [plain] at hplain'
    | rule s => simp [isRule] at hsame
    | atRule n' p' =>
      obtain ⟨rfl, rfl⟩ := atRuleHeader_inj (Bool.and_eq_true_iff.1 hplain).1
        (Bool.and_eq_true_iff.1 hplain').1 htext
      rfl

theorem not_mem_intercalate {α : Type} {c : α} {sep : List α} (hsep : c ∉ sep) {r : List (List α)}
    (h : ∀ l ∈ r, c ∉ l) : c ∉ sep.intercalate r := by
  induction r with
  | nil => exact List.not_mem_nil
  | cons l r ih =>
    obtain ⟨hl, hr⟩ := List.forall_mem_cons.1 h
    cases r with
    | nil => simpa using hl
    | cons m r =>
      rw [List.intercalate_cons_cons, List.mem_append, List.mem_append]
      exact fun hc => hc.elim (fun hc => hc.elim hl hsep) (ih hr)

theorem newline_not_mem_of_isInline {s : String} (h : isInline s = true) : '\n' ∉ s.toList := by
  intro hmem
  have hall := List.all_eq_true.1 (Bool.and_eq_true_iff.1 h).2 _ hmem
  simp at hall

theorem Head.newline_not_mem {h : Head} (hplain : h.plain = true) : '\n' ∉ h.text.toList := by
  cases h with
  | root => exact List.not_mem_nil
  | rule s =>
    rw [text, listText, String.toList_intercalate]
    apply not_mem_intercalate (by decide)
    intro l hl
    obtain ⟨x, hx, rfl⟩ := List.mem_map.1 hl
    have hselector := List.all_eq_true.1 (Bool.and_eq_true_iff.1 hplain).2 x hx
    simp only [isSelector, Bool.and_eq_true] at hselector
    exact newline_not_mem_of_isInline hselector.1.1.1.1
  | atRule n p =>
    obtain ⟨hname, hparams⟩ := Bool.and_eq_true_iff.1 hplain
    have hnotname : '\n' ∉ n.toList := isName_not_mem hname (by decide)
    rw [text, toList_atRuleHeader]
    split <;> simp [hnotname, newline_not_mem_of_isInline hparams]

/-- The last character of a line that opens or makes up a node with a header. -/
def Block.ending : Block → Char
  | .none => ';'
  | .empty => '\x7d'
  | .filled => '\x7b'

theorem Block.ending_inj {b b' : Block} (h : b.ending = b'.ending) : b = b' := by
  cases b <;> cases b' <;> first | rfl | exact absurd h (by decide)

namespace Clause

variable {c c' : Clause}

def ending : Clause → Char
  | .leaf (.declaration _) => ';'
  | .leaf (.comment _) => '/'
  | .leaf (.raw _) => ' '
  | .header _ b => b.ending
  | .close => '\x7d'

def isAtRule : Clause → Bool
  | .header h _ => !h.isRule
  | _ => false

theorem getLast?_text (h : c.plain = true) : c.text.toList.getLast? = some c.ending := by
  cases c with
  | leaf l =>
    cases l with
    | declaration d =>
      rw [text, Leaf.text, Declaration.toList_text]
      split <;> simp [ending, List.getLast?_cons]
    | comment t => simp [text, Leaf.text, ending, List.getLast?_cons]
    | raw t => simp [plain, Leaf.plain] at h
  | header h b => cases b <;> simp [text, Block.text, ending, Block.ending]
  | close => rfl

theorem exists_begins (h : c.plain = true) :
    ∃ x, Begins c.text x ∧ (x = '@' ↔ c.isAtRule = true) := by
  cases c with
  | leaf l =>
    cases l with
    | declaration d =>
      simp only [plain, Leaf.plain, Declaration.plain, Bool.and_eq_true] at h
      obtain ⟨x, hx, hat⟩ := exists_begins_of_isName h.1.1
      refine ⟨x, ?_, by simp [hat, isAtRule]⟩
      rw [text, Leaf.text, Declaration.text, String.append_assoc, String.append_assoc]
      exact hx.append _
    | comment t => exact ⟨'/', ⟨by simp [text, Leaf.text], by decide⟩, by simp [isAtRule]⟩
    | raw t => simp [plain, Leaf.plain] at h
  | header h b =>
    obtain ⟨x, hx, hrule⟩ := Head.exists_begins (Bool.and_eq_true_iff.1 h).1
    exact ⟨x, hx.append _, by simp [hrule, isAtRule]⟩
  | close => exact ⟨'\x7d', ⟨rfl, by decide⟩, by simp [isAtRule]⟩

theorem newline_not_mem (h : c.plain = true) : '\n' ∉ c.text.toList := by
  cases c with
  | leaf l =>
    cases l with
    | declaration d =>
      simp only [plain, Leaf.plain, Declaration.plain, Bool.and_eq_true] at h
      have hname : '\n' ∉ d.property.toList := isName_not_mem h.1.1 (by decide)
      rw [text, Leaf.text, Declaration.toList_text]
      split <;> simp [hname, newline_not_mem_of_isInline h.1.2]
    | comment t =>
      simp only [plain, Leaf.plain, Bool.and_eq_true, beq_iff_eq, Bool.not_eq_true'] at h
      have htext : '\n' ∉ t.toList := by simpa using h.2
      simp [text, Leaf.text, h.1, htext]
    | raw t => simp [plain, Leaf.plain] at h
  | header h b =>
    have hhead := Head.newline_not_mem (Bool.and_eq_true_iff.1 h).1
    cases b <;> simp [text, Block.text, hhead]
  | close => decide

/-- A leaf ends like a statement at most, and a statement begins like an at-rule. -/
theorem not_leaf_and_header {l : Leaf} {h : Head} {b : Block} (hplain : (leaf l).plain = true)
    (hplain' : (header h b).plain = true) (hending : (leaf l).ending = (header h b).ending)
    (hatRule : (leaf l).isAtRule = (header h b).isAtRule) : False := by
  have hrule : h.isRule = true := by simpa [isAtRule] using hatRule.symm
  have hblock : b ≠ .none := by
    rintro rfl
    simp [plain, hrule] at hplain'
  cases l with
  | declaration d =>
    have hnone : b.ending = Block.none.ending := hending.symm
    exact hblock (Block.ending_inj hnone)
  | comment t => cases b <;> simp [ending, Block.ending] at hending
  | raw t => simp [plain, Leaf.plain] at hplain

theorem ending_leaf_ne_close {l : Leaf} (hplain : (leaf l).plain = true) :
    (leaf l).ending ≠ close.ending := by
  cases l with
  | declaration d => simp [ending]
  | comment t => simp [ending]
  | raw t => simp [plain, Leaf.plain] at hplain

theorem text_leaf_inj {l l' : Leaf} (hplain : (leaf l).plain = true)
    (hplain' : (leaf l').plain = true) (htext : (leaf l).text = (leaf l').text)
    (hending : (leaf l).ending = (leaf l').ending) : l = l' := by
  cases l with
  | declaration d =>
    cases l' with
    | declaration d' => rw [Declaration.text_inj hplain hplain' htext]
    | comment t => simp [ending] at hending
    | raw t => simp [plain, Leaf.plain] at hplain'
  | comment t =>
    cases l' with
    | declaration d' => simp [ending] at hending
    | comment t' =>
      simp only [plain, Leaf.plain, Bool.and_eq_true, beq_iff_eq] at hplain hplain'
      simp only [text, Leaf.text, hplain.1, hplain'.1, String.append_left_inj,
        String.append_right_inj] at htext
      rw [htext]
    | raw t => simp [plain, Leaf.plain] at hplain'
  | raw t => simp [plain, Leaf.plain] at hplain

theorem text_header_ne_close (h : Head) (b : Block) : (header h b).text ≠ close.text := by
  intro htext
  have hlength := congrArg (fun t => t.toList.length) htext
  have hending := congrArg (fun t => t.toList.getLast?) htext
  cases b <;> simp [text, Block.text] at hlength hending

theorem text_inj (h : c.plain = true) (h' : c'.plain = true) (htext : c.text = c'.text) :
    c = c' := by
  have hending : c.ending = c'.ending := by
    apply Option.some.inj
    rw [← getLast?_text h, ← getLast?_text h', htext]
  have hatRule : c.isAtRule = c'.isAtRule := by
    obtain ⟨x, hx, hat⟩ := exists_begins h
    obtain ⟨x', hx', hat'⟩ := exists_begins h'
    rw [← htext] at hx'
    rw [Bool.eq_iff_iff, ← hat, ← hat', hx.unique hx']
  cases c with
  | leaf l =>
    cases c' with
    | leaf l' => rw [text_leaf_inj h h' htext hending]
    | header hd b => exact (not_leaf_and_header h h' hending hatRule).elim
    | close => exact absurd hending (ending_leaf_ne_close h)
  | header hd b =>
    cases c' with
    | leaf l' => exact (not_leaf_and_header h' h hending.symm hatRule.symm).elim
    | header hd' b' =>
      obtain rfl := Block.ending_inj (b := b) hending
      rw [text, text, String.append_left_inj] at htext
      rw [Head.text_inj (Bool.and_eq_true_iff.1 h).1 (Bool.and_eq_true_iff.1 h').1 htext]
    | close => exact absurd htext (text_header_ne_close hd b)
  | close =>
    cases c' with
    | leaf l' => exact absurd hending.symm (ending_leaf_ne_close h')
    | header hd b => exact absurd htext.symm (text_header_ne_close hd b)
    | close => rfl

end Clause

/-! The text tells the lines. -/

/-- A line without the character that ends it. -/
def lineChars (c : Nat × Clause) : List Char :=
  List.replicate (2 * c.1) ' ' ++ c.2.text.toList

theorem newline_not_mem_lineChars {c : Nat × Clause} (h : c.2.plain = true) :
    '\n' ∉ lineChars c := by
  simp [lineChars, Clause.newline_not_mem h]

theorem replicate_append_inj {α : Type} {c : α} {n m : Nat} {l l' : List α} (hl : l.head? ≠ some c)
    (hl' : l'.head? ≠ some c) (h : List.replicate n c ++ l = List.replicate m c ++ l') :
    n = m ∧ l = l' := by
  induction n generalizing m with
  | zero =>
    cases m with
    | zero => exact ⟨rfl, by simpa using h⟩
    | succ m => simp [List.replicate_succ, show l = _ from h] at hl
  | succ n ih =>
    cases m with
    | zero => simp [List.replicate_succ, show l' = _ from h.symm] at hl'
    | succ m =>
      obtain ⟨rfl, hrest⟩ := ih (List.cons.inj h).2
      exact ⟨rfl, hrest⟩

theorem lineChars_inj {c c' : Nat × Clause} (h : c.2.plain = true) (h' : c'.2.plain = true)
    (hchars : lineChars c = lineChars c') : c = c' := by
  have hhead : ∀ x : Clause, x.plain = true → x.text.toList.head? ≠ some ' ' := by
    intro x hx
    obtain ⟨y, ⟨hy, hblank⟩, -⟩ := Clause.exists_begins hx
    rw [hy]
    rintro ⟨⟩
    exact absurd hblank (by decide)
  obtain ⟨hdepth, htext⟩ := replicate_append_inj (hhead _ h) (hhead _ h') hchars
  exact Prod.ext (Nat.eq_of_mul_eq_mul_left Nat.two_pos hdepth)
    (Clause.text_inj h h' (String.toList_inj.1 htext))

theorem lines_inj {cs cs' : List (Nat × Clause)} (h : ∀ c ∈ cs, c.2.plain = true)
    (h' : ∀ c ∈ cs', c.2.plain = true) (hchars : cs.flatMap (fun c => lineChars c ++ ['\n']) =
      cs'.flatMap fun c => lineChars c ++ ['\n']) : cs = cs' := by
  induction cs generalizing cs' with
  | nil =>
    cases cs' with
    | nil => rfl
    | cons c' cs' => simp at hchars
  | cons c cs ih =>
    cases cs' with
    | nil => simp at hchars
    | cons c' cs' =>
      obtain ⟨hc, hcs⟩ := List.forall_mem_cons.1 h
      obtain ⟨hc', hcs'⟩ := List.forall_mem_cons.1 h'
      simp only [List.flatMap_cons, List.append_assoc, List.singleton_append] at hchars
      obtain ⟨hfirst, hrest⟩ := append_cons_inj (newline_not_mem_lineChars hc)
        (newline_not_mem_lineChars hc') hchars
      rw [lineChars_inj hc hc' hfirst, ih hcs hcs' hrest]

namespace Tree

variable {α β : Type}

theorem toList_print (t : Tree α) :
    t.print.toList = (t.clauses 0).flatMap fun c => lineChars c ++ ['\n'] := by
  rw [print, String.toList_join, lines_eq, List.map_map, List.flatMap_map]
  congr 1
  funext c
  simp [Line.print, lineChars]

/-! The lines tell the tree. -/

/-- What the first line of a tree says. -/
def first : Tree α → Clause
  | .leaf _ l => .leaf l
  | .statement _ n p => .header (.atRule n p) .none
  | .branch _ h [] => .header h .empty
  | .branch _ h (_ :: _) => .header h .filled

/-- What its other lines say. -/
def inner (d : Nat) : Tree α → List (Nat × Clause)
  | .leaf _ _ => []
  | .statement _ _ _ => []
  | .branch _ _ [] => []
  | .branch _ _ (t :: ts) => clausesAll (d + 1) (t :: ts) ++ [(d, .close)]

theorem clauses_eq {t : Tree α} (h : t.plain = true) (d : Nat) :
    t.clauses d = (d, t.first) :: t.inner d := by
  cases t with
  | leaf a l => rfl
  | statement a n p => rfl
  | branch a hd ts =>
    cases hd with
    | root => simp [plain, Head.plain] at h
    | rule s => cases ts <;> rfl
    | atRule n p => cases ts <;> rfl

theorem first_ne_close (t : Tree α) : t.first ≠ .close := by
  cases t with
  | leaf a l => simp [first]
  | statement a n p => simp [first]
  | branch a h ts => cases ts <;> simp [first]

theorem eq_leaf_of_first {t : Tree α} {l : Leaf} (hfirst : t.first = .leaf l) :
    ∃ a, t = .leaf a l := by
  cases t with
  | leaf a l' => exact ⟨a, by simpa [first] using hfirst⟩
  | statement a n p => simp [first] at hfirst
  | branch a h ts => cases ts <;> simp [first] at hfirst

theorem eq_statement_of_first {t : Tree α} {n p : String}
    (hfirst : t.first = .header (.atRule n p) .none) : ∃ a, t = .statement a n p := by
  cases t with
  | leaf a l => simp [first] at hfirst
  | statement a n' p' => exact ⟨a, by simpa [first] using hfirst⟩
  | branch a h ts => cases ts <;> simp [first] at hfirst

theorem eq_empty_of_first {t : Tree α} {h : Head} (hfirst : t.first = .header h .empty) :
    ∃ a, t = .branch a h [] := by
  cases t with
  | leaf a l => simp [first] at hfirst
  | statement a n p => simp [first] at hfirst
  | branch a h' ts =>
    cases ts with
    | nil => exact ⟨a, by simpa [first] using hfirst⟩
    | cons t ts => simp [first] at hfirst

theorem eq_filled_of_first {t : Tree α} {h : Head} (hfirst : t.first = .header h .filled) :
    ∃ a u us, t = .branch a h (u :: us) := by
  cases t with
  | leaf a l => simp [first] at hfirst
  | statement a n p => simp [first] at hfirst
  | branch a h' ts =>
    cases ts with
    | nil => simp [first] at hfirst
    | cons u us => exact ⟨a, u, us, by simpa [first] using hfirst⟩

/-- Nothing but the end of a block comes next. -/
def Stops (r : List (Nat × Clause)) : Prop := ∀ c ∈ r.head?, c.2 = .close

theorem not_stops (t : Tree α) (d : Nat) (r : List (Nat × Clause)) :
    ¬ Stops ((d, t.first) :: r) := by
  intro h
  exact t.first_ne_close (h _ rfl)

mutual

/-- What the lines say tells the tree, and where its lines end. -/
theorem clauses_inj : (t : Tree α) → (u : Tree β) → t.plain = true → u.plain = true →
    ∀ {d : Nat} {r r' : List (Nat × Clause)}, t.clauses d ++ r = u.clauses d ++ r' →
      t.map (fun _ => ()) = u.map (fun _ => ()) ∧ r = r'
  | .leaf a l, u, ht, hu, d, r, r', h => by
    rw [clauses_eq ht, clauses_eq hu, List.cons_append, List.cons_append, List.cons.injEq] at h
    obtain ⟨b, rfl⟩ := eq_leaf_of_first (congrArg Prod.snd h.1).symm
    exact ⟨rfl, h.2⟩
  | .statement a n p, u, ht, hu, d, r, r', h => by
    rw [clauses_eq ht, clauses_eq hu, List.cons_append, List.cons_append, List.cons.injEq] at h
    obtain ⟨b, rfl⟩ := eq_statement_of_first (congrArg Prod.snd h.1).symm
    exact ⟨rfl, h.2⟩
  | .branch a hd [], u, ht, hu, d, r, r', h => by
    rw [clauses_eq ht, clauses_eq hu, List.cons_append, List.cons_append, List.cons.injEq] at h
    obtain ⟨b, rfl⟩ := eq_empty_of_first (congrArg Prod.snd h.1).symm
    exact ⟨rfl, h.2⟩
  | .branch a hd (t :: ts), u, ht, hu, d, r, r', h => by
    rw [clauses_eq ht, clauses_eq hu, List.cons_append, List.cons_append, List.cons.injEq] at h
    obtain ⟨b, v, vs, rfl⟩ := eq_filled_of_first (congrArg Prod.snd h.1).symm
    have hinner := h.2
    rw [inner, inner, List.append_assoc, List.append_assoc] at hinner
    have hclose : ∀ l, Stops ([(d, Clause.close)] ++ l) := fun l c hc => by
      obtain rfl : (d, Clause.close) = c := by simpa using hc
      rfl
    obtain ⟨hchildren, hend⟩ := clausesAll_inj (t :: ts) (v :: vs)
      (Bool.and_eq_true_iff.1 ht).2 (Bool.and_eq_true_iff.1 hu).2 (hclose r) (hclose r') hinner
    exact ⟨congrArg (Tree.branch () hd) hchildren, (List.cons.inj hend).2⟩

theorem clausesAll_inj : (ts : List (Tree α)) → (us : List (Tree β)) → plainAll ts = true →
    plainAll us = true → ∀ {d : Nat} {r r' : List (Nat × Clause)}, Stops r → Stops r' →
      clausesAll d ts ++ r = clausesAll d us ++ r' →
      mapAll (fun _ => ()) ts = mapAll (fun _ => ()) us ∧ r = r'
  | [], [], _, _, _, _, _, _, _, h => ⟨rfl, h⟩
  | [], u :: us, _, hus, d, r, r', hr, _, h => by
    obtain ⟨hu, -⟩ := Bool.and_eq_true_iff.1 hus
    rw [clausesAll, clausesAll, clauses_eq hu, List.nil_append] at h
    rw [h] at hr
    exact absurd hr (not_stops u d _)
  | t :: ts, [], hts, _, d, r, r', _, hr', h => by
    obtain ⟨ht, -⟩ := Bool.and_eq_true_iff.1 hts
    rw [clausesAll, clausesAll, clauses_eq ht, List.nil_append] at h
    rw [← h] at hr'
    exact absurd hr' (not_stops t d _)
  | t :: ts, u :: us, hts, hus, d, r, r', hr, hr', h => by
    obtain ⟨ht, hts⟩ := Bool.and_eq_true_iff.1 hts
    obtain ⟨hu, hus⟩ := Bool.and_eq_true_iff.1 hus
    rw [clausesAll, clausesAll, List.append_assoc, List.append_assoc] at h
    obtain ⟨hfirst, hbehind⟩ := clauses_inj t u ht hu h
    obtain ⟨hrest, hend⟩ := clausesAll_inj ts us hts hus hr hr' hbehind
    exact ⟨by rw [mapAll, mapAll, hfirst, hrest], hend⟩

end

/-- Documents with the same text are the same, but for their labels, if all that stands in them is
plain. -/
theorem eq_of_print_eq {a : α} {b : β} {ts : List (Tree α)} {us : List (Tree β)}
    (hts : plainAll ts = true) (hus : plainAll us = true)
    (hprint : (Tree.branch a .root ts).print = (Tree.branch b .root us).print) :
    (Tree.branch a .root ts).map (fun _ => ()) = (Tree.branch b .root us).map (fun _ => ()) := by
  have hchars := congrArg String.toList hprint
  rw [toList_print, toList_print] at hchars
  have hclauses : clausesAll 0 ts = clausesAll 0 us :=
    lines_inj (plain_of_mem_clausesAll ts hts 0) (plain_of_mem_clausesAll us hus 0) hchars
  have hstops : Stops [] := by simp [Stops]
  obtain ⟨hsame, -⟩ := clausesAll_inj ts us hts hus hstops hstops
    (by rw [List.append_nil, List.append_nil, hclauses])
  exact congrArg (Tree.branch () .root) hsame

/-- Two documents with every kind of block and of plain leaf, one labelled by numbers and one by
characters. -/
theorem eq_of_print_eq_relabelled :
    let ts : List (Tree Nat) := [.statement 1 "import" "'a,b.css'",
      .branch 2 (.rule ["a", "/ b:is(@c)"]) [.leaf 3 (.declaration ⟨"--x", "! important", true⟩),
        .leaf 4 (.declaration ⟨"color", "", false⟩), .leaf 5 (.comment "x: y;"),
        .branch 6 (.atRule "media" "") [.branch 7 (.rule ["d"]) []], .branch 8 (.atRule "m" "n") []]]
    let us : List (Tree Char) := [.statement 'a' "import" "'a,b.css'",
      .branch 'a' (.rule ["a", "/ b:is(@c)"]) [.leaf 'a' (.declaration ⟨"--x", "! important", true⟩),
        .leaf 'b' (.declaration ⟨"color", "", false⟩), .leaf 'c' (.comment "x: y;"),
        .branch 'd' (.atRule "media" "") [.branch 'e' (.rule ["d"]) []],
        .branch 'f' (.atRule "m" "n") []]]
    plainAll ts = true ∧ plainAll us = true ∧
      (Tree.branch 0 .root ts).print = (Tree.branch 'r' .root us).print ∧
      (Tree.branch 0 .root ts).map (fun _ => ()) =
        (Tree.branch 'r' .root us).map (fun _ => ()) := by
  intro ts us
  have hts : plainAll ts = true := by decide +kernel
  have hus : plainAll us = true := by decide +kernel
  have hprint : (Tree.branch 0 .root ts).print = (Tree.branch 'r' .root us).print := by
    decide +kernel
  exact ⟨hts, hus, hprint, eq_of_print_eq hts hus hprint⟩

end Tree

end Unnest
