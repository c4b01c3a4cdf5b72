import Scriptwright.Proofs.Grammar.Recognition

/-!
# Recognizing type expressions

The parser of type expressions reads exactly the type expressions of the grammar.
The one greedy choice is the colon behind an interface: it always makes the
interface a function type, so a type expression must not be followed by a colon.
-/

namespace Scriptwright.Grammar
open Scriptwright.Parser

/-- A colon goes on with an interface. -/
def typeContinues (k : Kind) : Bool := k == .colon

variable {T : Phrase TypeExpr} {p : Parser TypeExpr}

theorem begins_property : Begins (@PropertyTree.tokens T) (· == .identifier) := by
  intro d
  exact ⟨d.name.val, _, rfl, by simp [d.name.property]⟩

theorem property_reads (h : ReadsPhrase p T typeContinues) :
    Reads (property p) (@PropertyTree.tokens T) PropertyTree.value typeContinues where
  sound := by
    intro input rest a hrun
    simp only [property, run_bind_eq_ok, run_take_eq_ok] at hrun
    obtain ⟨name, _, ⟨rfl, hname⟩, colon, _, ⟨rfl, hcolon⟩, type, _, htype, hpure⟩ := hrun
    obtain ⟨d, rfl, rfl⟩ := h.sound htype
    cases hpure
    exact ⟨⟨⟨name, hname⟩, ⟨colon, hcolon⟩, d⟩, rfl, rfl⟩
  complete := by
    intro d rest hends
    unfold property PropertyTree.tokens
    rw [List.cons_append, run_take_bind, List.cons_append, run_take_bind,
      run_bind_of_ok (h.complete d.type hends)]
    rfl

theorem properties_complete (h : ReadsPhrase p T typeContinues) (d : ShapeTree T)
    (rest : List Token) :
    (commaList .rightBrace (property p)).run
        (d.properties.tokens PropertyTree.tokens ++ d.closing.val :: rest) =
      .ok (d.properties.items.map PropertyTree.value, d.closing.val :: rest) :=
  commaList_complete (property_reads h) begins_property rfl rfl rfl (by decide) d.properties
    d.closing.property rest

theorem interfaceFrom_sound (h : ReadsPhrase p T typeContinues) {opening : Token}
    (ho : opening.kind = .leftBrace) {input rest : List Token} {a : TypeExpr}
    (hrun : (interfaceFrom p opening).run input = .ok (a, rest)) :
    ∃ d : TypeTree T, opening :: input = d.tokens ++ rest ∧ a = d.value := by
  simp only [interfaceFrom, Record.ofList_eq_merged, run_bind_eq_ok, run_take_eq_ok] at hrun
  obtain ⟨fields, _, hfields, closing, _, ⟨rfl, hclosing⟩, isFunction, _, haccept, hrun⟩ := hrun
  obtain ⟨properties, rfl, rfl⟩ := commaList_sound (property_reads h) hfields
  let shape : ShapeTree T := ⟨⟨opening, ho⟩, properties, ⟨closing, hclosing⟩⟩
  rcases run_accept_eq_ok.mp haccept with ⟨rfl, colon, hcolon, rfl⟩ | ⟨rfl, rfl, -⟩
  · obtain ⟨result, middle, hresult, hrun⟩ := run_bind_eq_ok.mp hrun
    obtain ⟨d, rfl, rfl⟩ := h.sound hresult
    cases hrun
    refine ⟨.function shape ⟨colon, hcolon⟩ d, ?_, rfl⟩
    simp [TypeTree.tokens, ShapeTree.tokens, shape]
  · cases hrun
    refine ⟨.interface shape, ?_, rfl⟩
    simp [TypeTree.tokens, ShapeTree.tokens, shape]

theorem interfaceFrom_interface (h : ReadsPhrase p T typeContinues) (shape : ShapeTree T)
    {rest : List Token} (hends : Ends typeContinues rest) :
    (interfaceFrom p shape.opening.val).run
        (shape.properties.tokens PropertyTree.tokens ++ shape.closing.val :: rest) =
      .ok ((TypeTree.interface shape).value, rest) := by
  have hcolon : ∀ t ∈ rest.head?, t.kind ≠ .colon := by
    intro t ht hk
    have hfalse := hends t ht
    rw [hk] at hfalse
    cases hfalse
  unfold interfaceFrom
  simp only [Record.ofList_eq_merged]
  rw [run_bind_of_ok (properties_complete h shape rest),
    run_take_bind,
    run_bind_of_ok (run_accept_of_ne hcolon)]
  rfl

theorem interfaceFrom_function (h : ReadsPhrase p T typeContinues) (shape : ShapeTree T)
    (colon : Terminal .colon) (result : T.Tree) {rest : List Token}
    (hresult : p.run (T.tokens result ++ rest) = .ok (T.value result, rest)) :
    (interfaceFrom p shape.opening.val).run (shape.properties.tokens PropertyTree.tokens ++
        shape.closing.val :: colon.val :: (T.tokens result ++ rest)) =
      .ok ((TypeTree.function shape colon result).value, rest) := by
  unfold interfaceFrom
  simp only [Record.ofList_eq_merged]
  rw [run_bind_of_ok (properties_complete h shape _),
    run_take_bind,
    run_bind_of_ok (run_accept_of_kind colon.property _)]
  change (p >>= _).run _ = _
  rw [run_bind_of_ok hresult]
  rfl

theorem typeExprIn_reads (h : ReadsPhrase p T typeContinues) :
    Reads (typeExprIn p) (@TypeTree.tokens T) TypeTree.value typeContinues where
  sound := by
    intro input rest a hrun
    simp only [typeExprIn, run_bind_eq_ok, run_any_eq_ok] at hrun
    obtain ⟨t, _, rfl, hrun⟩ := hrun
    split at hrun
    · next hk =>
      obtain ⟨element, middle', helement, hrun⟩ := run_bind_eq_ok.mp hrun
      obtain ⟨d, rfl, rfl⟩ := h.sound helement
      cases hrun
      exact ⟨.array ⟨t, hk⟩ d, rfl, rfl⟩
    · next hk => exact interfaceFrom_sound h hk hrun
    · next hk =>
      cases hrun
      exact ⟨.simple ⟨t, hk⟩, rfl, rfl⟩
    · cases hrun
  complete := by
    intro d rest hends
    unfold typeExprIn
    cases d with
    | array brackets element =>
      rw [TypeTree.tokens, List.cons_append, run_any_bind]
      simp only [brackets.property]
      rw [run_bind_of_ok (h.complete element hends)]
      rfl
    | interface shape =>
      rw [TypeTree.tokens, ShapeTree.tokens, List.cons_append, List.append_assoc,
        run_any_bind]
      simp only [shape.opening.property]
      exact interfaceFrom_interface h shape hends
    | function shape colon result =>
      rw [TypeTree.tokens, ShapeTree.tokens, List.append_assoc, List.cons_append,
        List.append_assoc, run_any_bind]
      simp only [shape.opening.property]
      exact interfaceFrom_function h shape colon result (h.complete result hends)
    | simple name =>
      rw [TypeTree.tokens, List.cons_append, run_any_bind]
      simp only [name.property]
      rfl

/-- The parser with a bound on the levels reads the type expressions within it. -/
theorem typeExpr_reads (n : Nat) : ReadsPhrase (typeExpr n) (typePhrase n) typeContinues := by
  induction n with
  | zero => exact ⟨nofun, nofun⟩
  | succ n ih => exact typeExprIn_reads ih

/-- A colon goes on with a type only behind a brace. -/
theorem run_typeExpr_of_last {n : Nat} (d : (typePhrase n).Tree)
    (hlast : ∀ t ∈ ((typePhrase n).tokens d).getLast?, t.kind ≠ .rightBrace) (rest : List Token) :
    run (typeExpr n) ((typePhrase n).tokens d ++ rest) = .ok ((typePhrase n).value d, rest) := by
  induction n with
  | zero => exact d.elim
  | succ n ih =>
    change run (typeExprIn (typeExpr n)) (TypeTree.tokens d ++ rest) = .ok (TypeTree.value d, rest)
    unfold typeExprIn
    cases d with
    | array brackets element =>
      have helement := ih element fun t ht => hlast t (List.mem_getLast?_cons ht)
      rw [TypeTree.tokens, List.cons_append, run_any_bind]
      simp only [brackets.property]
      rw [run_bind_of_ok helement]
      rfl
    | interface shape =>
      have hclosing := hlast shape.closing.val (List.mem_getLast?_cons List.getLast?_concat)
      exact absurd shape.closing.property hclosing
    | function shape colon result =>
      have hresult := ih result fun t ht =>
        hlast t (List.mem_getLast?_append_of_mem_getLast? (List.mem_getLast?_cons ht))
      rw [TypeTree.tokens, ShapeTree.tokens, List.append_assoc, List.cons_append,
        List.append_assoc, run_any_bind]
      simp only [shape.opening.property]
      exact interfaceFrom_function (typeExpr_reads n) shape colon result hresult
    | simple name =>
      rw [TypeTree.tokens, List.cons_append, run_any_bind]
      simp only [name.property]
      rfl

end Scriptwright.Grammar
