import Unnest.Flatten
import Unnest.Proofs.Pass.LetterCase
import Unnest.Proofs.Pass.StyleSheet

/-! The text of a flat form. Labels are not printed, so the text that a pass leaves is the printed
flat form of the trees it found. A style sheet has one whatever the options are, and options that
know the same names lead to the same text. -/

namespace Unnest

open Tree Store

namespace Tree

variable {α β : Type}

mutual

theorem lines_map (f : α → β) (depth : Nat) : (t : Tree α) → (t.map f).lines depth = t.lines depth
  | .leaf _ _ => rfl
  | .statement _ _ _ => rfl
  | .branch _ .root ts => linesAll_mapAll f depth ts
  | .branch _ (.rule _) ts => blockLines_mapAll f depth _ ts
  | .branch _ (.atRule _ _) ts => blockLines_mapAll f depth _ ts

theorem blockLines_mapAll (f : α → β) (depth : Nat) (header : String) : (ts : List (Tree α)) →
    blockLines depth header (mapAll f ts) = blockLines depth header ts
  | [] => rfl
  | t :: ts => by
    rw [mapAll, blockLines, blockLines, lines_map f (depth + 1) t, linesAll_mapAll f (depth + 1) ts]

theorem linesAll_mapAll (f : α → β) (depth : Nat) : (ts : List (Tree α)) →
    linesAll depth (mapAll f ts) = linesAll depth ts
  | [] => rfl
  | t :: ts => by
    rw [mapAll, linesAll, linesAll, lines_map f depth t, linesAll_mapAll f depth ts]

end

/-- Top-level trees as style sheet text. -/
def printAll (ts : List (Tree α)) : String := String.join ((linesAll 0 ts).map Line.print)

theorem print_root (a : α) (ts : List (Tree α)) : (Tree.branch a .root ts).print = printAll ts := rfl

theorem printAll_mapAll (f : α → β) (ts : List (Tree α)) : printAll (mapAll f ts) = printAll ts := by
  rw [printAll, linesAll_mapAll, printAll]

mutual

theorem respell_id : (t : Tree α) → t.respell id id = t
  | .leaf _ _ => rfl
  | .statement _ _ _ => rfl
  | .branch a .root ts => congrArg (Tree.branch a .root) (respellAll_id ts)
  | .branch a (.rule s) ts => congrArg (Tree.branch a (.rule s)) (respellAll_id ts)
  | .branch a (.atRule n p) ts => congrArg (Tree.branch a (.atRule n p)) (respellAll_id ts)

theorem respellAll_id : (ts : List (Tree α)) → respellAll id id ts = ts
  | [] => rfl
  | t :: ts => by rw [respellAll, respell_id t, respellAll_id ts]

end

/-- The flat form asks the options for no more than what they do with a name. -/
theorem flatAll_of_sameNames {o o' : Options} (h : o.SameNames o') (fresh : α)
    (ts : List (Tree α)) :
    flatAll o fresh (fun _ => true) ts = flatAll o' fresh (fun _ => true) ts := by
  have hrespell : respellAll id id (flatAll o fresh (fun _ => true) ts) =
      flatAll o' fresh (fun _ => true) (respellAll id id ts) :=
    respell_flatAll (h.follows Text.sameName_refl) ts
  rwa [respellAll_id, respellAll_id] at hrespell

end Tree

namespace Pass

theorem flattenDocument_eq {s : Store} {doc : NodeId} {ts : List (Tree NodeId)} (o : Options)
    (h : s.IsDocument doc ts) : flattenDocument o doc s =
      .ok (printAll (flatAll o none (fun _ => true) (mapAll some ts))) := by
  obtain ⟨s', ts', hrun, hb, hts⟩ := runs_flatten (ρ := Unit) o h
  obtain ⟨log, hok⟩ := hrun #[] ()
  have hprint : s'.print doc = printAll ts' := by
    rw [Store.print, hb.part.isDocument.tree?_eq]
    exact print_root doc ts'
  rw [flattenDocument, hok, ← hts, printAll_mapAll, ← hprint]

end Pass

/-- Every style sheet has a flat form. -/
theorem exists_flattenRules (o : Options) (rules : List Css.Rule) :
    ∃ text, flattenRules o rules = .ok text := by
  obtain ⟨us, -, hdoc⟩ := ofTrees_isDocument (Css.isRoot_of_mem_nodesAll rules)
  exact ⟨_, Pass.flattenDocument_eq o hdoc⟩

variable {o o' : Options}

theorem flattenRules_of_sameNames (h : o.SameNames o') (rules : List Css.Rule) :
    flattenRules o rules = flattenRules o' rules := by
  obtain ⟨us, -, hdoc⟩ := ofTrees_isDocument (Css.isRoot_of_mem_nodesAll rules)
  rw [flattenRules, flattenRules, Pass.flattenDocument_eq o hdoc, Pass.flattenDocument_eq o' hdoc,
    flatAll_of_sameNames h]

theorem flattenRead_of_sameNames (read : Css.Reader) (h : o.SameNames o') (source text : String) :
    flattenRead read o source text = flattenRead read o' source text := by
  rw [flattenRead, flattenRead, funext (flattenRules_of_sameNames h)]

/-- Flattening fails only where reading does. -/
theorem exists_flattenRead {read : Css.Reader} {source text : String} {rules : List Css.Rule}
    (h : read source text = .ok rules) (o : Options) :
    ∃ flat, flattenRead read o source text = .ok flat := by
  obtain ⟨flat, hflat⟩ := exists_flattenRules o rules
  refine ⟨flat, ?_⟩
  rw [flattenRead, h]
  exact hflat

end Unnest
