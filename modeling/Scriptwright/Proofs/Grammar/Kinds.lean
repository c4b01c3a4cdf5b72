import Scriptwright.Proofs.Grammar.Program

/-!
# The kinds of token in types and expressions

A type is spelled with names, braces, colons, commas and empty brackets. An expression has
no words but those of its operators and literals. So neither has a word that begins a
declaration, and where such a word stands in a program a declaration begins.
-/

namespace Scriptwright.Grammar

/-- Each of the tokens is of one of the given kinds. -/
def Spelled (kinds : Kind → Bool) (ts : List Token) : Prop := ∀ t ∈ ts, kinds t.kind = true

def typeKind : Kind → Bool
  | .identifier | .colon | .comma | .leftBrace | .rightBrace | .emptyBrackets => true
  | _ => false

def exprKind : Kind → Bool
  | .keyword .andWord | .keyword .orWord | .keyword .trueWord | .keyword .falseWord
  | .keyword .nilWord => true
  | .keyword _ | .semicolon | .equal | .question | .endOfText => false
  | _ => true

/-- No declaration begins with a token of this kind. -/
def quiet (k : Kind) : Bool := !declarationStarts k

section
variable {kinds wider : Kind → Bool} {t : Token} {ts us : List Token}

theorem spelled_nil : Spelled kinds [] := List.forall_mem_nil _

@[simp] theorem spelled_cons : Spelled kinds (t :: ts) ↔ kinds t.kind = true ∧ Spelled kinds ts :=
  List.forall_mem_cons

@[simp] theorem spelled_append :
    Spelled kinds (ts ++ us) ↔ Spelled kinds ts ∧ Spelled kinds us :=
  List.forall_mem_append

theorem Spelled.mono (h : Spelled kinds ts) (hk : ∀ k, kinds k = true → wider k = true) :
    Spelled wider ts :=
  fun t ht => hk t.kind (h t ht)

theorem Terminal.spelled {k : Kind} (t : Terminal k) (h : kinds k = true) :
    kinds t.val.kind = true := by
  rw [t.property]
  exact h

theorem Sign.spelled {ω : Type} {table : Kind → Option ω} (s : Sign table)
    (h : ∀ k, (table k).isSome = true → kinds k = true) : kinds s.token.kind = true := by
  apply h
  rw [s.spells]
  rfl

variable {δ : Type} {tokens : δ → List Token}

theorem spelled_flatMap (h : ∀ d, Spelled kinds (tokens d)) (ds : List δ) :
    Spelled kinds (ds.flatMap tokens) := by
  induction ds with
  | nil => exact spelled_nil
  | cons d ds ih =>
    rw [List.flatMap_cons, spelled_append]
    exact ⟨h d, ih⟩

theorem CommaList.spelled (hcomma : kinds .comma = true) (h : ∀ d, Spelled kinds (tokens d))
    (ds : CommaList δ) : Spelled kinds (ds.tokens tokens) := by
  cases ds with
  | none => exact spelled_nil
  | some first more =>
    have hmore : ∀ item, Spelled kinds (CommaList.moreTokens tokens item) := by
      intro item
      rw [CommaList.moreTokens, spelled_cons]
      exact ⟨item.1.spelled hcomma, h item.2⟩
    rw [CommaList.tokens, spelled_append]
    exact ⟨h first, spelled_flatMap hmore more⟩

end

section
variable {T : Phrase TypeExpr} (hT : ∀ d, Spelled typeKind (T.tokens d))
include hT

theorem PropertyTree.spelled (d : PropertyTree T) : Spelled typeKind d.tokens := by
  rw [PropertyTree.tokens, spelled_cons, spelled_cons]
  exact ⟨d.name.spelled rfl, d.colon.spelled rfl, hT d.type⟩

theorem ShapeTree.spelled (d : ShapeTree T) : Spelled typeKind d.tokens := by
  rw [ShapeTree.tokens, spelled_cons, spelled_append, spelled_cons]
  exact ⟨d.opening.spelled rfl, CommaList.spelled rfl (PropertyTree.spelled hT) d.properties,
    d.closing.spelled rfl, spelled_nil⟩

theorem TypeTree.spelled (d : TypeTree T) : Spelled typeKind d.tokens := by
  cases d with
  | array brackets element =>
    rw [tokens, spelled_cons]
    exact ⟨brackets.spelled rfl, hT element⟩
  | interface shape => exact shape.spelled hT
  | function parameters colon result =>
    rw [tokens, spelled_append, spelled_cons]
    exact ⟨parameters.spelled hT, colon.spelled rfl, hT result⟩
  | simple name =>
    rw [tokens, spelled_cons]
    exact ⟨name.spelled rfl, spelled_nil⟩

end

theorem typePhrase_spelled (n : Nat) (d : (typePhrase n).Tree) :
    Spelled typeKind ((typePhrase n).tokens d) := by
  induction n with
  | zero => exact d.elim
  | succ n ih => exact TypeTree.spelled ih d

theorem exprKind_of_binary (k : Kind) (h : (BinaryOp.ofKind? k).isSome = true) :
    exprKind k = true := by
  cases k with
  | keyword word =>
    cases word with
    | andWord | orWord => rfl
    | _ => cases h
  | semicolon | equal | question | endOfText => cases h
  | _ => rfl

theorem exprKind_of_unary (k : Kind) (h : (UnaryOp.ofKind? k).isSome = true) :
    exprKind k = true := by
  cases k with
  | minus | bang => rfl
  | _ => cases h

theorem exprKind_of_comparison (k : Kind) (h : (comparison? k).isSome = true) :
    exprKind k = true := by
  apply exprKind_of_binary
  rw [comparison?_eq] at h
  exact Option.isSome_of_isSome_filter _ _ h

theorem TermTree.spelled (d : TermTree) : exprKind d.token.kind = true := by
  have h := d.denotes
  cases hk : d.token.kind with
  | keyword word =>
    cases word with
    | andWord | orWord | trueWord | falseWord | nilWord => rfl
    | _ => simp [term?, hk] at h
  | semicolon | equal | question | endOfText => simp [term?, hk] at h
  | _ => rfl

section
variable {E : Phrase Expr} {O : Phrase Operand} (hE : ∀ d, Spelled exprKind (E.tokens d))
  (hO : ∀ d, Spelled exprKind (O.tokens d))
include hE

theorem FieldTree.spelled (d : FieldTree E) : Spelled exprKind d.tokens := by
  cases d with
  | named name colon value =>
    rw [tokens, spelled_cons, spelled_cons]
    exact ⟨name.spelled rfl, colon.spelled rfl, hE value⟩
  | shorthand name =>
    rw [tokens, spelled_cons]
    exact ⟨name.spelled rfl, spelled_nil⟩

theorem ObjectTree.spelled (d : ObjectTree E) : Spelled exprKind d.tokens := by
  rw [tokens, spelled_cons, spelled_append, spelled_cons]
  exact ⟨d.opening.spelled rfl, CommaList.spelled rfl (FieldTree.spelled hE) d.fields,
    d.closing.spelled rfl, spelled_nil⟩

theorem GroupTree.spelled (d : GroupTree E) : Spelled exprKind d.tokens := by
  rw [tokens, spelled_cons, spelled_append, spelled_cons]
  exact ⟨d.opening.spelled rfl, hE d.inner, d.closing.spelled rfl, spelled_nil⟩

theorem HeadTree.spelled (d : HeadTree E) : Spelled exprKind d.tokens := by
  cases d with
  | group d => exact d.spelled hE
  | object d => exact d.spelled hE
  | term d =>
    rw [tokens, spelled_cons]
    exact ⟨d.spelled, spelled_nil⟩

theorem TrailerTree.spelled (d : TrailerTree E) : Spelled exprKind d.tokens := by
  cases d with
  | call opening arguments closing =>
    rw [tokens, spelled_cons, spelled_append, spelled_cons]
    exact ⟨opening.spelled rfl, CommaList.spelled rfl hE arguments, closing.spelled rfl,
      spelled_nil⟩
  | index opening inner closing =>
    rw [tokens, spelled_cons, spelled_append, spelled_cons]
    exact ⟨opening.spelled rfl, hE inner, closing.spelled rfl, spelled_nil⟩
  | member dot name =>
    rw [tokens, spelled_cons, spelled_cons]
    exact ⟨dot.spelled rfl, name.spelled rfl, spelled_nil⟩

theorem spelled_link (link : Sign BinaryOp.ofKind? × GroupTree E) :
    Spelled exprKind (linkTokens link) := by
  rw [linkTokens, spelled_cons]
  exact ⟨link.1.spelled exprKind_of_binary, link.2.spelled hE⟩

include hO

theorem OperandTree.spelled (d : OperandTree E O) : Spelled exprKind d.tokens := by
  cases d with
  | unary sign argument =>
    rw [tokens, spelled_cons]
    exact ⟨sign.spelled exprKind_of_unary, hO argument⟩
  | plain head trailers =>
    rw [tokens, spelled_append]
    exact ⟨head.spelled hE, spelled_flatMap (TrailerTree.spelled hE) trailers⟩

theorem ExprTree.spelled (d : ExprTree E O) : Spelled exprKind d.tokens := by
  cases d with
  | template token =>
    rw [tokens, spelled_cons]
    exact ⟨token.spelled rfl, spelled_nil⟩
  | emptyArray brackets =>
    rw [tokens, spelled_cons]
    exact ⟨brackets.spelled rfl, spelled_nil⟩
  | array opening elements closing =>
    rw [tokens, spelled_cons, spelled_append, spelled_cons]
    exact ⟨opening.spelled rfl, CommaList.spelled rfl hE elements, closing.spelled rfl,
      spelled_nil⟩
  | object d => exact d.spelled hE
  | single first bare => exact first.spelled hE hO
  | chain first bare sign second more =>
    rw [tokens, spelled_append, spelled_cons, spelled_append]
    exact ⟨first.spelled hE hO, sign.spelled exprKind_of_binary, second.spelled hE hO,
      spelled_flatMap (spelled_link hE) more⟩

end

theorem phrases_spelled (n : Nat) :
    (∀ d, Spelled exprKind ((exprPhrase n).tokens d)) ∧
      ∀ d, Spelled exprKind ((operandPhrase n).tokens d) := by
  induction n with
  | zero => exact ⟨fun d => d.elim, fun d => d.elim⟩
  | succ n ih => exact ⟨ExprTree.spelled ih.1 ih.2, OperandTree.spelled ih.1 ih.2⟩

theorem quiet_of_typeKind (k : Kind) (h : typeKind k = true) : quiet k = true := by
  cases k with
  | keyword word => cases h
  | _ => rfl

theorem quiet_of_exprKind (k : Kind) (h : exprKind k = true) : quiet k = true := by
  cases k with
  | keyword word =>
    cases word with
    | typeWord | funcWord => cases h
    | _ => rfl
  | _ => rfl

theorem typePhrase_quiet {n : Nat} (d : (typePhrase n).Tree) :
    Spelled quiet ((typePhrase n).tokens d) :=
  (typePhrase_spelled n d).mono quiet_of_typeKind

theorem exprPhrase_quiet {n : Nat} (d : (exprPhrase n).Tree) :
    Spelled quiet ((exprPhrase n).tokens d) :=
  ((phrases_spelled n).1 d).mono quiet_of_exprKind

theorem ConditionTree.quiet (d : ConditionTree) : Spelled quiet d.tokens := by
  rw [tokens, spelled_cons, spelled_cons, spelled_cons]
  exact ⟨d.name.spelled rfl, quiet_of_exprKind _ (d.sign.spelled exprKind_of_comparison),
    quiet_of_exprKind _ d.right.spelled, spelled_nil⟩

theorem AssignmentTree.quiet {n : Nat} (d : AssignmentTree (exprPhrase n)) :
    Spelled quiet d.tokens := by
  rw [tokens, spelled_cons, spelled_cons]
  exact ⟨d.name.spelled rfl, d.equal.spelled rfl, exprPhrase_quiet d.right⟩

theorem parameters_quiet (parameters : CommaList (Terminal .identifier)) :
    Spelled quiet (parameters.tokens fun name => [name.val]) := by
  apply CommaList.spelled rfl
  intro name
  rw [spelled_cons]
  exact ⟨name.spelled rfl, spelled_nil⟩

end Scriptwright.Grammar
