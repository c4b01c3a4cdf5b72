import Scriptwright.Proofs.FileTree.Walk

/-!
# The order of paths

Paths are compared component by component, and names by their bytes. So `a/x` comes before
`a-b`, although a slash is greater than a hyphen.
-/

namespace Scriptwright.Path

/-- A part of a path that tells where to go. -/
inductive Component where
  | root
  | here
  | up
  | name (name : Bytes)
  deriving DecidableEq, Repr

namespace Component

/-- What a segment tells. -/
def ofSegment (segment : Bytes) : List Component :=
  if stays segment then [] else if segment = Path.up then [up] else [name segment]

/-- What the first segment tells. It is empty if the path begins with a slash, and a dot in
this place is kept. -/
def ofFirst (segment : Bytes) : List Component :=
  if segment = [] then [root] else if segment = [dot] then [here] else ofSegment segment

def rank : Component → Nat
  | root => 0
  | here => 1
  | up => 2
  | name _ => 3

/-- The order of components. Names come last and are compared by their bytes. -/
inductive Before : Component → Component → Prop
  | kind {a b : Component} (h : a.rank < b.rank) : Before a b
  | bytes {s t : Bytes} (h : s < t) : Before (name s) (name t)

theorem Before.asymm {a b : Component} (h : Before a b) : ¬ Before b a := by
  intro h'
  cases h with
  | kind h =>
    cases h' with
    | kind h' => exact Nat.lt_asymm h h'
    | bytes h' => exact Nat.lt_irrefl _ h
  | bytes h =>
    cases h' with
    | kind h' => exact Nat.lt_irrefl _ h'
    | bytes h' => exact List.lt_asymm h h'

theorem ofSegment_of_isName {segment : Bytes} (h : isName segment = true) :
    ofSegment segment = [name segment] := by
  obtain ⟨hnamed, -⟩ := named_of_isName h
  simp [ofSegment, hnamed.stays, hnamed.ne_up]

end Component

/-- The components of a path. The empty path has none. -/
def components (p : Path) : List Component :=
  match p.segments with
  | [] => []
  | first :: others =>
    if p.bytes = [] then [] else Component.ofFirst first ++ others.flatMap Component.ofSegment

/-- Paths are compared component by component, and a path comes before those that go on. -/
def Before (p q : Path) : Prop := List.Lex Component.Before p.components q.components

theorem Before.asymm {p q : Path} (h : p.Before q) : ¬ q.Before p := by
  unfold Before at h ⊢
  generalize p.components = cs at h ⊢
  generalize q.components = ds at h ⊢
  induction h with
  | nil => exact List.not_lex_nil
  | rel h =>
    intro h'
    cases h' with
    | rel h' => exact h.asymm h'
    | cons => exact h.asymm h
  | cons _ ih =>
    intro h'
    cases h' with
    | rel h' => exact h'.asymm h'
    | cons h' => exact ih h'

theorem components_cons {first : Bytes} {others : List Bytes}
    (h : bytes ⟨first :: others⟩ ≠ []) : components ⟨first :: others⟩ =
      Component.ofFirst first ++ others.flatMap Component.ofSegment :=
  if_neg h

/-- An entry of a directory has one component more than the directory. -/
theorem components_child {p : Path} (hp : p.bytes ≠ []) {name : Bytes} (h : isName name = true) :
    (p.child name).components = p.components ++ [.name name] := by
  have hne := (named_of_isName h).1.ne_nil
  have hlast : [name].flatMap Component.ofSegment = [.name name] := by
    rw [List.flatMap_singleton, Component.ofSegment_of_isName h]
  have hconcat (first : Bytes) (others : List Bytes) :
      components ⟨first :: (others ++ [name])⟩ =
        Component.ofFirst first ++ others.flatMap Component.ofSegment ++ [.name name] := by
    have hbytes : bytes ⟨first :: (others ++ [name])⟩ ≠ [] := bytes_ne_nil (first :: others) hne
    rw [components_cons hbytes, List.flatMap_append, hlast, List.append_assoc]
  obtain ⟨segments⟩ := p
  cases segments with
  | nil => exact absurd rfl hp
  | cons first others =>
    rw [components_cons hp]
    unfold child
    split_ifs with hslash
    · obtain ⟨init, hinit⟩ := List.getLast?_eq_some_iff.mp hslash
      cases init with
      | nil =>
        cases hinit
        exact absurd rfl hp
      | cons first' init =>
        change first :: others = first' :: (init ++ [[]]) at hinit
        obtain ⟨rfl, rfl⟩ := List.cons.inj hinit
        have hdrop : (first :: (init ++ [[]])).dropLast = first :: init := by
          rw [← List.cons_append, List.dropLast_concat]
        dsimp only
        rw [hdrop, List.cons_append, hconcat, List.flatMap_append]
        simp [Component.ofSegment, stays]
    · exact hconcat first others

theorem bytes_child_ne_nil (p : Path) {name : Bytes} (h : isName name = true) :
    (p.child name).bytes ≠ [] := by
  have hne := (named_of_isName h).1.ne_nil
  unfold child
  split_ifs
  · exact bytes_ne_nil _ hne
  · exact bytes_ne_nil _ hne

/-- The path that names lead to from the directory `p`. -/
def below (p : Path) (names : List Bytes) : Path := names.foldl child p

@[simp] theorem below_nil (p : Path) : p.below [] = p := rfl

@[simp] theorem below_cons (p : Path) (name : Bytes) (names : List Bytes) :
    p.below (name :: names) = (p.child name).below names := rfl

theorem components_below {p : Path} (hp : p.bytes ≠ []) {names : List Bytes}
    (h : ∀ name ∈ names, isName name = true) :
    (p.below names).components = p.components ++ names.map .name := by
  induction names generalizing p with
  | nil => simp
  | cons name names ih =>
    obtain ⟨hname, hnames⟩ := List.forall_mem_cons.mp h
    rw [below_cons, ih (p.bytes_child_ne_nil hname) hnames, components_child hp hname]
    simp

end Scriptwright.Path
