import Unnest.Proofs.Pass.Meaning

/-! The order of declarations. Behind a child that leaves a rule, the declarations of the rule go
into a copy of it that follows, so a pass does not move them past each other. What a bubbling
at-rule declares itself goes into one rule in front, which keeps the order if it came first. -/

namespace Unnest

open Tree Store Selector

namespace Tree

variable {α β : Type} {o : Options} {fresh : α}

mutual

/-- The declarations of a tree with their labels, from top to bottom. -/
def declarations : Tree α → List (α × Declaration)
  | .leaf a (.declaration d) => [(a, d)]
  | .leaf _ (.comment _) => []
  | .leaf _ (.raw _) => []
  | .statement _ _ _ => []
  | .branch _ _ ts => declarationsAll ts

def declarationsAll : List (Tree α) → List (α × Declaration)
  | [] => []
  | t :: ts => declarations t ++ declarationsAll ts

end

def isDeclaration : Tree α → Bool
  | .leaf _ (.declaration _) => true
  | _ => false

/-- No declaration comes behind a rule or an at-rule. -/
def declarationsFirst : List (Tree α) → Bool
  | [] => true
  | t :: ts => (t.isLeaf || !ts.any isDeclaration) && declarationsFirst ts

mutual

/-- In every at-rule below a rule the declarations come first. -/
def frontLoaded (below : Bool) : Tree α → Bool
  | .leaf _ _ => true
  | .statement _ _ _ => true
  | .branch _ .root ts => frontLoadedAll below ts
  | .branch _ (.rule _) ts => frontLoadedAll true ts
  | .branch _ (.atRule _ _) ts => (!below || declarationsFirst ts) && frontLoadedAll below ts

def frontLoadedAll (below : Bool) : List (Tree α) → Bool
  | [] => true
  | t :: ts => frontLoaded below t && frontLoadedAll below ts

end

theorem declarationsAll_append (ts us : List (Tree α)) :
    declarationsAll (ts ++ us) = declarationsAll ts ++ declarationsAll us := by
  induction ts with
  | nil => rfl
  | cons t ts ih => simp [declarationsAll, ih]

@[simp] theorem declarationsAll_singleton (t : Tree α) : declarationsAll [t] = t.declarations := by
  simp [declarationsAll]

mutual

theorem declarations_map (f : α → β) : (t : Tree α) →
    (t.map f).declarations = t.declarations.map (Prod.map f id)
  | .leaf _ (.declaration _) => rfl
  | .leaf _ (.comment _) => rfl
  | .leaf _ (.raw _) => rfl
  | .statement _ _ _ => rfl
  | .branch _ _ ts => declarationsAll_mapAll f ts

theorem declarationsAll_mapAll (f : α → β) : (ts : List (Tree α)) →
    declarationsAll (mapAll f ts) = (declarationsAll ts).map (Prod.map f id)
  | [] => rfl
  | t :: ts => by
    rw [mapAll, declarationsAll, declarationsAll, declarations_map f t,
      declarationsAll_mapAll f ts, List.map_append]

end

theorem isLeaf_map (f : α → β) (t : Tree α) : (t.map f).isLeaf = t.isLeaf := by
  cases t <;> rfl

theorem isDeclaration_map (f : α → β) (t : Tree α) :
    (t.map f).isDeclaration = t.isDeclaration := by
  rcases t with ⟨a, _ | _ | _⟩ | ⟨a, n, p⟩ | ⟨a, h, ts⟩ <;> rfl

theorem any_isDeclaration_mapAll (f : α → β) (ts : List (Tree α)) :
    (mapAll f ts).any isDeclaration = ts.any isDeclaration := by
  simp only [mapAll_eq, List.any_map, Function.comp_def, isDeclaration_map]

theorem declarationsFirst_mapAll (f : α → β) (ts : List (Tree α)) :
    declarationsFirst (mapAll f ts) = declarationsFirst ts := by
  induction ts with
  | nil => rfl
  | cons t ts ih =>
    rw [mapAll, declarationsFirst, declarationsFirst, isLeaf_map, any_isDeclaration_mapAll, ih]

theorem declarationsFirst_iff (ts : List (Tree α)) : declarationsFirst ts = true ↔
    ts.Pairwise fun t u => t.isLeaf = true ∨ u.isDeclaration = false := by
  induction ts with
  | nil => simp [declarationsFirst]
  | cons t ts ih =>
    rw [declarationsFirst, Bool.and_eq_true, ih, List.pairwise_cons]
    simp [List.any_eq_false, forall_or_left]

mutual

theorem frontLoaded_map (f : α → β) (below : Bool) : (t : Tree α) →
    frontLoaded below (t.map f) = frontLoaded below t
  | .leaf _ _ => rfl
  | .statement _ _ _ => rfl
  | .branch _ .root ts => frontLoadedAll_mapAll f below ts
  | .branch _ (.rule _) ts => frontLoadedAll_mapAll f true ts
  | .branch _ (.atRule _ _) ts => by
    rw [Tree.map, frontLoaded, frontLoaded, declarationsFirst_mapAll,
      frontLoadedAll_mapAll f below ts]

theorem frontLoadedAll_mapAll (f : α → β) (below : Bool) : (ts : List (Tree α)) →
    frontLoadedAll below (mapAll f ts) = frontLoadedAll below ts
  | [] => rfl
  | t :: ts => by
    rw [mapAll, frontLoadedAll, frontLoadedAll, frontLoaded_map f below t,
      frontLoadedAll_mapAll f below ts]

end

namespace Share

/-- The declarations of some shares, one share after the other. -/
def declarations (shares : List (Share α)) : List (α × Declaration) :=
  shares.flatMap fun x => declarationsAll x.trees

/-- What stays in a rule in any case has no declaration. -/
def Loose : Share α → Prop
  | .fixed ts => declarationsAll ts = []
  | _ => True

/-- No declaration stays behind something that leaves. -/
def InFront (shares : List (Share α)) : Prop :=
  shares.Pairwise fun x y =>
    x.isLifted = true → y.isLifted = true ∨ declarationsAll y.trees = []

variable {s : List String} {shares : List (Share α)}

theorem declarations_cons (x : Share α) (shares : List (Share α)) :
    declarations (x :: shares) = declarationsAll x.trees ++ declarations shares := rfl

theorem declarations_copy (ts : List (Tree α)) :
    declarationsAll (copy fresh s ts) = declarationsAll ts := by
  cases ts with
  | nil => rfl
  | cons t ts => exact declarationsAll_singleton _

/-- Once something has left, no declaration stays. -/
theorem declarations_kept (h : ∀ x ∈ shares, x.Loose) :
    declarationsAll (kept true shares) = [] := by
  induction shares with
  | nil => rfl
  | cons x shares ih =>
    obtain ⟨hx, hrest⟩ := List.forall_mem_cons.1 h
    cases x with
    | fixed ts => rw [kept, declarationsAll_append, hx, ih hrest, List.nil_append]
    | movable ts => exact ih hrest
    | lifted ts => exact ih hrest

/-- Only before anything has left do declarations stay, and then none are pending. -/
theorem declarations_kept_left (split : Bool) {pending : List (Tree α)}
    (hpending : split = false → pending = []) (h : ∀ x ∈ shares, x.Loose) :
    declarationsAll (kept split shares) ++ declarationsAll (left fresh s split pending shares) =
      declarationsAll pending ++ declarations shares := by
  induction shares generalizing split pending with
  | nil => rw [left, declarations_copy]; exact (List.append_nil _).symm
  | cons x shares ih =>
    obtain ⟨hx, hrest⟩ := List.forall_mem_cons.1 h
    rw [declarations_cons]
    cases x with
    | fixed ts =>
      have hts : declarationsAll ts = [] := hx
      rw [kept, left, declarationsAll_append, trees, hts, List.nil_append, List.nil_append,
        ih split hpending hrest]
    | movable ts =>
      cases split with
      | false =>
        obtain rfl := hpending rfl
        simp only [kept, left, trees, Bool.false_eq_true, if_false]
        rw [declarationsAll_append, List.append_assoc, ih false (fun _ => rfl) hrest]
        rfl
      | true =>
        simp only [kept, left, trees, if_true]
        rw [ih true Bool.noConfusion hrest, declarationsAll_append, List.append_assoc]
    | lifted ts =>
      -- from here on everything goes to the copies, the pending trees first
      have hnext : declarationsAll (left fresh s true [] shares) = declarations shares := by
        have hsplit := ih true (fun _ => rfl) hrest
        rwa [declarations_kept hrest] at hsplit
      rw [kept, left, declarations_kept hrest, declarationsAll_append, declarationsAll_append,
        declarations_copy, hnext, trees, List.append_assoc, List.nil_append]

theorem declarations_apart (a : α) (h : ∀ x ∈ shares, x.Loose) :
    declarationsAll (apart o fresh a s shares) = declarations shares := by
  have hsplit : declarationsAll (kept false shares) ++
      declarationsAll (left fresh s false [] shares) = declarations shares :=
    declarations_kept_left false (fun _ => rfl) h
  rw [apart, declarationsAll_append, ← hsplit]
  congr 1
  split
  · next hdrop =>
    rw [Bool.and_eq_true, List.isEmpty_iff] at hdrop
    rw [hdrop.2]
  · exact declarationsAll_singleton _

theorem declarations_leftovers
    (h : ∀ x ∈ shares, x.isLifted = true ∨ declarationsAll x.trees = []) :
    declarationsAll (leftovers shares) = [] := by
  induction shares with
  | nil => rfl
  | cons x shares ih =>
    obtain ⟨hx, hrest⟩ := List.forall_mem_cons.1 h
    cases x with
    | fixed ts =>
      rw [leftovers, declarationsAll_append, ih hrest, List.append_nil]
      exact hx.resolve_left Bool.noConfusion
    | movable ts =>
      rw [leftovers, declarationsAll_append, ih hrest, List.append_nil]
      exact hx.resolve_left Bool.noConfusion
    | lifted ts => exact ih hrest

theorem declarations_wrap (h : InFront shares) :
    declarationsAll (wrap fresh s shares) = declarations shares := by
  rw [wrap, declarationsAll_append, declarations_copy]
  induction shares with
  | nil => rfl
  | cons x shares ih =>
    obtain ⟨hx, hrest⟩ := List.pairwise_cons.1 h
    rw [declarations_cons, ← ih hrest]
    cases x with
    | fixed ts => rw [leftovers, goers, declarationsAll_append, List.append_assoc, trees]
    | movable ts => rw [leftovers, goers, declarationsAll_append, List.append_assoc, trees]
    | lifted ts =>
      rw [leftovers, goers, declarations_leftovers fun y hy => hx y hy rfl, declarationsAll_append,
        trees]
      rfl

end Share

open Share

theorem share_loose (due : α → Bool) (s : List String) {t : Tree α}
    (h : bubblesOnly o true t = true) : (share o fresh due s t).Loose := by
  rcases t with ⟨a, _ | _ | _⟩ | ⟨a, n, p⟩ | ⟨a, _ | r | ⟨n, p⟩, ts⟩
  · trivial
  · exact rfl
  · trivial
  · cases h
  · cases h
  · trivial
  · rw [share_bubbling due s h]
    trivial

theorem inside_lifted (due : α → Bool) (s : List String) : (t : Tree α) →
    bubblesOnly o true t = true → t.isLeaf = false →
    (inside o fresh due false s true t).isLifted = true
  | .leaf _ _, _, hleaf => by cases hleaf
  | .statement _ _ _, h, _ => by cases h
  | .branch _ .root _, h, _ => by cases h
  | .branch _ (.rule _) _, _, _ => by rw [inside, if_pos rfl]; rfl
  | .branch _ (.atRule _ _) _, h, _ => by rw [inside_bubbling due s h]; rfl

theorem inside_leaf (due : α → Bool) (s : List String) {t : Tree α} (hleaf : t.isLeaf = true) :
    inside o fresh due false s true t = .movable [t] := by
  cases t with
  | leaf a l => rfl
  | statement a n p => cases hleaf
  | branch a h ts => cases hleaf

theorem declarations_eq_nil {t : Tree α} (hleaf : t.isLeaf = true)
    (hdecl : t.isDeclaration = false) : t.declarations = [] := by
  rcases t with ⟨a, d | x | x⟩ | ⟨a, n, p⟩ | ⟨a, h, ts⟩
  · cases hdecl
  · rfl
  · rfl
  · cases hleaf
  · cases hleaf

/-- Only leaves stay in a bubbling at-rule; a leaf behind what leaves is no declaration. -/
theorem inFront_insideAll (due : α → Bool) (s : List String) {ts : List (Tree α)}
    (hb : bubblesOnlyAll o true ts = true) (hfirst : declarationsFirst ts = true) :
    InFront (insideAll o fresh due false s true ts) := by
  rw [bubblesOnlyAll_iff] at hb
  rw [insideAll_eq, InFront, List.pairwise_map]
  refine ((declarationsFirst_iff ts).1 hfirst).imp_of_mem fun {t u} _ hu hlead hlifted => ?_
  have hdecl : u.isDeclaration = false := by
    refine hlead.resolve_left fun hleaf => ?_
    rw [inside_leaf due s hleaf] at hlifted
    cases hlifted
  cases hleaf : u.isLeaf with
  | false => exact .inl (inside_lifted due s u (hb u hu) hleaf)
  | true =>
    refine .inr ?_
    rw [inside_leaf due s hleaf, trees, declarationsAll_singleton, declarations_eq_nil hleaf hdecl]

theorem shareAll_loose (due : α → Bool) (s : List String) {ts : List (Tree α)}
    (hb : bubblesOnlyAll o true ts = true) : ∀ x ∈ shareAll o fresh due s ts, x.Loose := by
  rw [bubblesOnlyAll_iff] at hb
  rw [shareAll_eq]
  exact List.forall_mem_map.2 fun t ht => share_loose due s (hb t ht)

theorem declarations_place (a : α) (s : List String) {ts : List (Tree α)} (us : List (Tree α))
    (hb : bubblesOnlyAll o true ts = true)
    (hshare : Share.declarations (shareAll o fresh (fun _ => true) s ts) = declarationsAll ts) :
    declarationsAll (place o fresh (fun _ => true) a s (shareAll o fresh (fun _ => true) s ts) us) =
      declarationsAll ts := by
  rw [place, if_pos rfl, declarations_apart a (shareAll_loose _ s hb), hshare]

/-- A bubbling at-rule keeps its declarations in order. -/
theorem declarations_bubbling {a : α} {n p : String} (s : List String) {ts : List (Tree α)}
    (hb : bubblesOnly o true (.branch a (.atRule n p) ts) = true)
    (hf : frontLoaded true (.branch a (.atRule n p) ts) = true)
    (hinside : Share.declarations (insideAll o fresh (fun _ => true) false s true ts) =
      declarationsAll ts) :
    (Tree.branch a (.atRule n p)
        (wrap fresh s (insideAll o fresh (fun _ => true) false s true ts))).declarations =
      (Tree.branch a (.atRule n p) ts).declarations := by
  obtain ⟨-, -, hts⟩ := bubblesOnly_atRule hb
  obtain ⟨hfirst, -⟩ := Bool.and_eq_true_iff.1 hf
  rw [declarations, declarations, declarations_wrap (inFront_insideAll _ s hts hfirst), hinside]

mutual

theorem declarations_flat : (t : Tree α) → bubblesOnly o false t = true →
    frontLoaded false t = true →
    declarationsAll (flat o fresh (fun _ => true) t) = t.declarations
  | .leaf _ _, _, _ => declarationsAll_singleton _
  | .statement _ _ _, _, _ => rfl
  | .branch a .root ts, hb, hf => by
    rw [flat, declarationsAll_singleton, declarations, declarations,
      declarations_flatAll ts hb hf]
  | .branch a (.atRule n p) ts, hb, hf => by
    rw [flat, declarationsAll_singleton, declarations, declarations,
      declarations_flatAll ts hb hf]
  | .branch a (.rule s) ts, hb, hf => by
    rw [flat, declarations_place a s _ hb (declarations_shareAll s ts hb hf), declarations]

theorem declarations_flatAll : (ts : List (Tree α)) → bubblesOnlyAll o false ts = true →
    frontLoadedAll false ts = true →
    declarationsAll (flatAll o fresh (fun _ => true) ts) = declarationsAll ts
  | [], _, _ => rfl
  | t :: ts, hb, hf => by
    obtain ⟨hbt, hbts⟩ := Bool.and_eq_true_iff.1 hb
    obtain ⟨hft, hfts⟩ := Bool.and_eq_true_iff.1 hf
    rw [flatAll, declarationsAll_append, declarations_flat t hbt hft,
      declarations_flatAll ts hbts hfts, declarationsAll]

theorem declarations_share (s : List String) : (t : Tree α) → bubblesOnly o true t = true →
    frontLoaded true t = true →
    declarationsAll (share o fresh (fun _ => true) s t).trees = t.declarations
  | .leaf _ (.comment _), _, _ => rfl
  | .leaf _ (.declaration _), _, _ => rfl
  | .leaf _ (.raw _), _, _ => rfl
  | .statement _ _ _, hb, _ => by cases hb
  | .branch _ .root _, hb, _ => by cases hb
  | .branch a (.rule r) ts, hb, hf => by
    rw [share, trees, declarations_place a _ _ hb (declarations_shareAll _ ts hb hf), declarations]
  | .branch a (.atRule n p) ts, hb, hf => by
    rw [share_bubbling _ s hb, trees, declarationsAll_singleton, declarations_bubbling s hb hf
      (declarations_insideAll s ts (bubblesOnly_atRule hb).2.2 (Bool.and_eq_true_iff.1 hf).2)]

theorem declarations_shareAll (s : List String) : (ts : List (Tree α)) →
    bubblesOnlyAll o true ts = true → frontLoadedAll true ts = true →
    Share.declarations (shareAll o fresh (fun _ => true) s ts) = declarationsAll ts
  | [], _, _ => rfl
  | t :: ts, hb, hf => by
    obtain ⟨hbt, hbts⟩ := Bool.and_eq_true_iff.1 hb
    obtain ⟨hft, hfts⟩ := Bool.and_eq_true_iff.1 hf
    rw [shareAll, declarations_cons, declarations_share s t hbt hft,
      declarations_shareAll s ts hbts hfts, declarationsAll]

theorem declarations_inside (s : List String) : (t : Tree α) → bubblesOnly o true t = true →
    frontLoaded true t = true →
    declarationsAll (inside o fresh (fun _ => true) false s true t).trees = t.declarations
  | .leaf _ _, _, _ => declarationsAll_singleton _
  | .statement _ _ _, hb, _ => by cases hb
  | .branch _ .root _, hb, _ => by cases hb
  | .branch a (.rule r) ts, hb, hf => by
    rw [inside, if_pos rfl, trees, declarations_place a _ _ hb (declarations_shareAll _ ts hb hf),
      declarations]
  | .branch a (.atRule n p) ts, hb, hf => by
    rw [inside_bubbling _ s hb, trees, declarationsAll_singleton, declarations_bubbling s hb hf
      (declarations_insideAll s ts (bubblesOnly_atRule hb).2.2 (Bool.and_eq_true_iff.1 hf).2)]

theorem declarations_insideAll (s : List String) : (ts : List (Tree α)) →
    bubblesOnlyAll o true ts = true → frontLoadedAll true ts = true →
    Share.declarations (insideAll o fresh (fun _ => true) false s true ts) = declarationsAll ts
  | [], _, _ => rfl
  | t :: ts, hb, hf => by
    obtain ⟨hbt, hbts⟩ := Bool.and_eq_true_iff.1 hb
    obtain ⟨hft, hfts⟩ := Bool.and_eq_true_iff.1 hf
    rw [insideAll, declarations_cons, declarations_inside s t hbt hft,
      declarations_insideAll s ts hbts hfts, declarationsAll]

end

end Tree

namespace Pass

variable {ρ : Type} {s : Store} {doc : NodeId} {ts : List (Tree NodeId)}

/-- Nodes that were there before are told apart by where they come from. -/
theorem eq_of_map_origin {γ : Type} {k : Nat} {xs ys : List (NodeId × γ)}
    (h : xs.map (Prod.map (origin k) id) = ys.map (Prod.map some id)) : xs = ys := by
  induction xs generalizing ys with
  | nil =>
    cases ys with
    | nil => rfl
    | cons y ys => cases h
  | cons x xs ih =>
    cases ys with
    | nil => cases h
    | cons y ys =>
      obtain ⟨hxy, hrest⟩ := List.cons.inj h
      obtain ⟨hlabel, hentry⟩ := Prod.ext_iff.1 hxy
      rw [Prod.ext (origin_eq_some.1 hlabel).1 hentry, ih hrest]

/-- Where only bubbling at-rules stand below rules and the declarations come first in each of them,
a pass leaves all declarations in their order. -/
theorem flatten_keeps_order (o : Options) (h : s.IsDocument doc ts)
    (hb : bubblesOnlyAll o false ts = true) (hf : frontLoadedAll false ts = true)
    (log : Array Event) (own : ρ) :
    ∃ st s' ts' log', flatten o doc ⟨s, log, own⟩ = .ok st ⟨s', log', own⟩ ∧
      s'.IsDocument doc ts' ∧ declarationsAll ts' = declarationsAll ts := by
  obtain ⟨s', ts', hrun, hbecomes, hts⟩ := runs_flatten (ρ := ρ) o h
  obtain ⟨log', hok⟩ := hrun log own
  refine ⟨_, s', ts', log', hok, hbecomes.part.isDocument, ?_⟩
  have hflat : declarationsAll (flatAll o none (fun _ => true) (mapAll some ts)) =
      declarationsAll (mapAll some ts) := by
    refine declarations_flatAll _ ?_ ?_
    · rw [bubblesOnlyAll_mapAll, hb]
    · rw [frontLoadedAll_mapAll, hf]
  rw [← hts, declarationsAll_mapAll, declarationsAll_mapAll] at hflat
  exact eq_of_map_origin hflat

/-- A rule with declarations between what leaves it: a rule, and a bubbling at-rule with a
declaration and a rule of its own. -/
def mixedTrees : List (Tree NodeId) :=
  [.branch 1 (.rule ["a"]) [
    .leaf 2 (.declaration ⟨"top", "1px", false⟩),
    .branch 3 (.rule ["b"]) [.leaf 4 (.declaration ⟨"left", "2px", false⟩)],
    .leaf 5 (.declaration ⟨"top", "3px", false⟩),
    .branch 6 (.atRule "media" "print") [
      .leaf 7 (.declaration ⟨"top", "4px", false⟩),
      .branch 8 (.rule ["c"]) [.leaf 9 (.declaration ⟨"left", "5px", true⟩)]],
    .leaf 10 (.declaration ⟨"top", "6px", false⟩)]]

def mixedStore : Store :=
  ⟨#[some (.root [1]), some (.rule ["a"] [2, 3, 5, 6, 10] (some 0)),
    some (.leaf (.declaration ⟨"top", "1px", false⟩)), some (.rule ["b"] [4] (some 1)),
    some (.leaf (.declaration ⟨"left", "2px", false⟩)),
    some (.leaf (.declaration ⟨"top", "3px", false⟩)),
    some (.atRule "media" "print" (some [7, 8]) (some 1)),
    some (.leaf (.declaration ⟨"top", "4px", false⟩)), some (.rule ["c"] [9] (some 6)),
    some (.leaf (.declaration ⟨"left", "5px", true⟩)),
    some (.leaf (.declaration ⟨"top", "6px", false⟩))]⟩

theorem mixedStore_isDocument : mixedStore.IsDocument 0 mixedTrees :=
  ⟨rfl, ⟨⟨rfl, rfl, ⟨rfl, rfl, trivial⟩, rfl, ⟨rfl, rfl, ⟨rfl, rfl, trivial⟩, trivial⟩, rfl,
    trivial⟩, trivial⟩, by decide⟩

theorem flatten_mixedStore :
    ∃ st s' ts' log', flatten {} 0 ⟨mixedStore, #[], ()⟩ = .ok st ⟨s', log', ()⟩ ∧
      s'.IsDocument 0 ts' ∧
      declarationsAll ts' =
        [(2, ⟨"top", "1px", false⟩), (4, ⟨"left", "2px", false⟩), (5, ⟨"top", "3px", false⟩),
          (7, ⟨"top", "4px", false⟩), (9, ⟨"left", "5px", true⟩), (10, ⟨"top", "6px", false⟩)] :=
  flatten_keeps_order {} mixedStore_isDocument (by rfl) (by rfl) #[] ()

end Pass

end Unnest
