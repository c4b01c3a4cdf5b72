import Scriptwright.Proofs.Grammar.Recognition

/-!
# Recognizing expressions

The parser of expressions reads exactly the expressions of the grammar. Two loops
are greedy: an operand takes every call and access behind it, and a chain takes
every operator. The flag that an operand carries, whether it is a group with nothing
behind it, decides what a chain accepts from its third operand on.
-/

namespace Scriptwright.Grammar
open Scriptwright.Parser

/-- A call or an access goes on with an operand. -/
def operandContinues (k : Kind) : Bool := (Trailer.ofKind? k).isSome

/-- An operator goes on with a chain. -/
def exprContinues (k : Kind) : Bool := (Trailer.ofKind? k).isSome || (BinaryOp.ofKind? k).isSome

/-- A colon gives a value to a field. -/
def fieldContinues (k : Kind) : Bool := exprContinues k || k == .colon

def termStarts : Kind → Bool
  | .identifier | .number | .text
  | .keyword .trueWord | .keyword .falseWord | .keyword .nilWord => true
  | _ => false

/-- What an operand that is no object begins with. -/
def chainStarts : Kind → Bool
  | .minus | .bang | .leftParen => true
  | k => termStarts k

def exprStarts : Kind → Bool
  | .template | .emptyBrackets | .leftBracket | .leftBrace => true
  | k => chainStarts k

theorem operandContinues_of_expr {k : Kind} (h : exprContinues k = false) :
    operandContinues k = false := by
  simp only [exprContinues, Bool.or_eq_false_iff] at h
  exact h.1

theorem operandContinues_of_sign (sign : Sign BinaryOp.ofKind?) :
    operandContinues sign.token.kind = false := by
  have h := sign.spells
  revert h
  cases sign.token.kind <;> simp [operandContinues, Trailer.ofKind?, BinaryOp.ofKind?]

theorem ends_operand {rest : List Token}
    (h : ∀ t ∈ rest.head?, Trailer.ofKind? t.kind = none) : Ends operandContinues rest := by
  intro t ht
  simp [operandContinues, h t ht]

theorem trailer_none_of_ends {rest : List Token} (h : Ends operandContinues rest) :
    ∀ t ∈ rest.head?, Trailer.ofKind? t.kind = none := by
  intro t ht
  simpa [operandContinues] using h t ht

theorem run_term_eq_ok {what : Expectation} {t : Token} {input rest : List Token} {e : Expr} :
    (term what t).run input = .ok (e, rest) ↔ term? t = some e ∧ rest = input := by
  obtain ⟨kind, lexeme, value, span⟩ := t
  unfold term term?
  split <;> simp_all [@eq_comm _ rest]

theorem run_term (d : TermTree) (what : Expectation) (input : List Token) :
    (term what d.token).run input = .ok (d.value, input) :=
  run_term_eq_ok.mpr ⟨d.denotes, rfl⟩

theorem TermTree.starts (d : TermTree) : termStarts d.token.kind = true := by
  have h := d.denotes
  unfold term? at h
  split at h <;> simp_all [termStarts]

theorem chainStarts_of_term {k : Kind} (h : termStarts k = true) : chainStarts k = true := by
  cases k with
  | minus | bang | leftParen => rfl
  | _ => exact h

theorem unaryOp_none_of_term {k : Kind} (h : termStarts k = true) : UnaryOp.ofKind? k = none := by
  cases k with
  | minus | bang => cases h
  | _ => rfl

variable {E : Phrase Expr} {O : Phrase Operand} {expr : Parser Expr} {operand : Parser Operand}

theorem OperandTree.begins_of_bare (d : OperandTree E O) (h : d.beginsWithObject = false) :
    ∃ t ts, d.tokens = t :: ts ∧ chainStarts t.kind = true := by
  cases d with
  | unary sign argument =>
    refine ⟨sign.token, _, rfl, ?_⟩
    have hs := sign.spells
    revert hs
    cases sign.token.kind <;> simp [UnaryOp.ofKind?, chainStarts]
  | plain head trailers =>
    cases head with
    | group d => exact ⟨d.opening.val, _, rfl, by rw [d.opening.property]; rfl⟩
    | object d => cases h
    | term d => exact ⟨d.token, _, rfl, chainStarts_of_term d.starts⟩

theorem exprStarts_of_chain {k : Kind} (h : chainStarts k = true) : exprStarts k = true := by
  cases k with
  | template | emptyBrackets | leftBracket | leftBrace => rfl
  | _ => exact h

theorem ExprTree.begins : Begins (@ExprTree.tokens E O) exprStarts := by
  intro d
  cases d with
  | template token => exact ⟨token.val, _, rfl, by rw [token.property]; rfl⟩
  | emptyArray brackets => exact ⟨brackets.val, _, rfl, by rw [brackets.property]; rfl⟩
  | array opening elements closing =>
    exact ⟨opening.val, _, rfl, by rw [opening.property]; rfl⟩
  | object d => exact ⟨d.opening.val, _, rfl, by rw [d.opening.property]; rfl⟩
  | single first bare =>
    obtain ⟨t, ts, ht, hs⟩ := first.begins_of_bare bare
    exact ⟨t, ts, ht, exprStarts_of_chain hs⟩
  | chain first bare sign second more =>
    obtain ⟨t, ts, ht, hs⟩ := first.begins_of_bare bare
    refine ⟨t, ts ++ sign.token :: (second.tokens ++ more.flatMap linkTokens), ?_,
      exprStarts_of_chain hs⟩
    rw [ExprTree.tokens, ht, List.cons_append]

theorem FieldTree.begins : Begins (@FieldTree.tokens E) (· == .identifier) := by
  intro d
  cases d with
  | named name colon value => exact ⟨name.val, _, rfl, by simp [name.property]⟩
  | shorthand name => exact ⟨name.val, _, rfl, by simp [name.property]⟩

section
variable (hE : ReadsPhrase expr E exprContinues)
include hE

theorem field_reads : Reads (field expr) (@FieldTree.tokens E) FieldTree.value fieldContinues where
  sound := by
    intro input rest a hrun
    simp only [field, run_bind_eq_ok, run_take_eq_ok] at hrun
    obtain ⟨name, _, ⟨rfl, hname⟩, named, _, haccept, hrun⟩ := hrun
    rcases run_accept_eq_ok.mp haccept with ⟨rfl, colon, hcolon, rfl⟩ | ⟨rfl, rfl, -⟩
    · rw [if_pos rfl, run_bind_eq_ok] at hrun
      obtain ⟨value, _, hvalue, hpure⟩ := hrun
      obtain ⟨d, rfl, rfl⟩ := hE.sound hvalue
      cases hpure
      exact ⟨.named ⟨name, hname⟩ ⟨colon, hcolon⟩ d, rfl, rfl⟩
    · cases hrun
      exact ⟨.shorthand ⟨name, hname⟩, rfl, rfl⟩
  complete := by
    intro d rest hends
    unfold field
    cases d with
    | named name colon value =>
      rw [FieldTree.tokens, List.cons_append, run_take_bind, List.cons_append,
        run_bind_of_ok (run_accept_of_kind colon.property _), if_pos rfl]
      have hends' : Ends exprContinues rest := hends.mono fun k hk => by
        simp only [fieldContinues, Bool.or_eq_false_iff] at hk
        exact hk.1
      rw [run_bind_of_ok (hE.complete value hends')]
      rfl
    | shorthand name =>
      have hcolon : ∀ t ∈ rest.head?, t.kind ≠ .colon := by
        intro t ht hk
        have hfalse := hends t ht
        rw [hk] at hfalse
        cases hfalse
      rw [FieldTree.tokens, List.cons_append, run_take_bind, List.nil_append,
        run_bind_of_ok (run_accept_of_ne hcolon)]
      rfl

theorem objectFrom_sound {opening : Token} (ho : opening.kind = .leftBrace)
    {input rest : List Token} {e : Expr}
    (hrun : (objectFrom expr opening).run input = .ok (e, rest)) :
    ∃ d : ObjectTree E, opening :: input = d.tokens ++ rest ∧ e = d.value := by
  simp only [objectFrom, Record.ofList_eq_merged, run_bind_eq_ok, run_take_eq_ok] at hrun
  obtain ⟨fields, _, hfields, closing, _, ⟨rfl, hclosing⟩, hpure⟩ := hrun
  obtain ⟨d, rfl, rfl⟩ := commaList_sound (field_reads hE) hfields
  cases hpure
  refine ⟨⟨⟨opening, ho⟩, d, ⟨closing, hclosing⟩⟩, ?_, rfl⟩
  simp [ObjectTree.tokens]

theorem run_objectFrom (d : ObjectTree E) (rest : List Token) :
    (objectFrom expr d.opening.val).run
        (d.fields.tokens FieldTree.tokens ++ d.closing.val :: rest) = .ok (d.value, rest) := by
  unfold objectFrom
  simp only [Record.ofList_eq_merged]
  rw [run_bind_of_ok (commaList_complete (field_reads hE) FieldTree.begins rfl rfl rfl
    (by decide) d.fields d.closing.property rest), run_take_bind]
  rfl

theorem arrayFrom_sound {opening : Token} (ho : opening.kind = .leftBracket)
    {input rest : List Token} {e : Expr}
    (hrun : (arrayFrom expr opening).run input = .ok (e, rest)) :
    ∃ d : ExprTree E O, opening :: input = d.tokens ++ rest ∧ e = d.value := by
  simp only [arrayFrom, run_bind_eq_ok, run_take_eq_ok] at hrun
  obtain ⟨elements, _, helements, closing, _, ⟨rfl, hclosing⟩, hpure⟩ := hrun
  obtain ⟨d, rfl, rfl⟩ := commaList_sound hE helements
  cases hpure
  refine ⟨.array ⟨opening, ho⟩ d ⟨closing, hclosing⟩, ?_, rfl⟩
  simp [ExprTree.tokens]

theorem run_arrayFrom (hb : Begins E.tokens exprStarts) (opening : Token)
    (elements : CommaList E.Tree) (closing : Terminal .rightBracket) (rest : List Token) :
    (arrayFrom expr opening).run (elements.tokens E.tokens ++ closing.val :: rest) =
      .ok (.array (elements.items.map E.value) (opening.span.cover closing.val.span), rest) := by
  unfold arrayFrom
  rw [run_bind_of_ok (commaList_complete hE hb rfl rfl rfl (by decide) elements closing.property
    rest), run_take_bind]
  rfl

theorem primaryFrom_sound (hO : ReadsPhrase operand O operandContinues) {t : Token}
    {input rest : List Token} {a : Operand}
    (hrun : (primaryFrom expr operand t).run input = .ok (a, rest)) :
    (∃ (sign : Sign UnaryOp.ofKind?) (argument : O.Tree) (inner : Operand),
        t :: input = (OperandTree.unary sign argument : OperandTree E O).tokens ++ rest ∧
        a = (OperandTree.unary sign argument : OperandTree E O).value ∧
        operand.run input = .ok (inner, rest)) ∨
      ∃ head : HeadTree E, t :: input = head.tokens ++ rest ∧ a = head.value := by
  unfold primaryFrom at hrun
  split at hrun
  · next op hop =>
    rw [run_bind_eq_ok] at hrun
    obtain ⟨inner, _, hinner, hpure⟩ := hrun
    obtain ⟨argument, hinput, rfl⟩ := hO.sound hinner
    cases hpure
    refine .inl ⟨⟨t, op, hop⟩, argument, O.value argument, ?_, rfl, hinner⟩
    rw [hinput]
    rfl
  · split at hrun
    · next hk =>
      simp only [run_bind_eq_ok, run_take_eq_ok] at hrun
      obtain ⟨inner, _, hinner, closing, _, ⟨rfl, hclosing⟩, hpure⟩ := hrun
      obtain ⟨d, rfl, rfl⟩ := hE.sound hinner
      cases hpure
      refine .inr ⟨.group ⟨⟨t, hk⟩, d, ⟨closing, hclosing⟩⟩, ?_, rfl⟩
      simp [HeadTree.tokens, GroupTree.tokens]
    · next hk =>
      rw [run_bind_eq_ok] at hrun
      obtain ⟨object, _, hobject, hpure⟩ := hrun
      obtain ⟨d, hinput, rfl⟩ := objectFrom_sound hE hk hobject
      cases hpure
      exact .inr ⟨.object d, hinput, rfl⟩
    · rw [run_bind_eq_ok] at hrun
      obtain ⟨e, _, hterm, hpure⟩ := hrun
      obtain ⟨hdenotes, rfl⟩ := run_term_eq_ok.mp hterm
      cases hpure
      exact .inr ⟨.term ⟨t, e, hdenotes⟩, rfl, rfl⟩

omit hE in
theorem run_primaryFrom_unary (hO : ReadsPhrase operand O operandContinues)
    (sign : Sign UnaryOp.ofKind?) (argument : O.Tree) {rest : List Token}
    (hends : Ends operandContinues rest) :
    (primaryFrom expr operand sign.token).run (O.tokens argument ++ rest) =
      .ok ((OperandTree.unary sign argument : OperandTree E O).value, rest) := by
  unfold primaryFrom
  simp only [sign.spells]
  rw [run_bind_of_ok (hO.complete argument hends)]
  rfl

theorem run_primaryFrom_head (operand : Parser Operand) (head : HeadTree E)
    (rest : List Token) :
    ∃ t ts, head.tokens = t :: ts ∧
      (primaryFrom expr operand t).run (ts ++ rest) = .ok (head.value, rest) := by
  unfold primaryFrom
  cases head with
  | group d =>
    refine ⟨d.opening.val, _, rfl, ?_⟩
    have hends : Ends exprContinues (d.closing.val :: rest) := by
      rw [ends_cons, d.closing.property]
      rfl
    simp only [d.opening.property, UnaryOp.ofKind?, List.append_assoc, List.cons_append,
      List.nil_append]
    rw [run_bind_of_ok (hE.complete d.inner hends), run_take_bind]
    rfl
  | object d =>
    refine ⟨d.opening.val, _, rfl, ?_⟩
    simp only [d.opening.property, UnaryOp.ofKind?, List.append_assoc, List.cons_append,
      List.nil_append]
    rw [run_bind_of_ok (run_objectFrom hE d rest)]
    rfl
  | term d =>
    refine ⟨d.token, [], rfl, ?_⟩
    have hs := d.starts
    simp only [unaryOp_none_of_term hs]
    split
    · next hk => rw [hk] at hs; cases hs
    · next hk => rw [hk] at hs; cases hs
    · rw [run_bind_of_ok (run_term d _ _)]
      rfl

theorem applyTrailer_sound {t : Token} {c : Trailer} (hc : Trailer.ofKind? t.kind = some c)
    {o o' : Operand} {input rest : List Token}
    (hrun : (applyTrailer expr o c).run input = .ok (o', rest)) :
    ∃ d : TrailerTree E, t :: input = d.tokens ++ rest ∧ o' = d.apply o := by
  cases c with
  | call =>
    have hk : t.kind = .leftParen := by
      revert hc
      cases t.kind <;> simp [Trailer.ofKind?]
    simp only [applyTrailer, run_bind_eq_ok, run_take_eq_ok] at hrun
    obtain ⟨arguments, _, harguments, closing, _, ⟨rfl, hclosing⟩, hpure⟩ := hrun
    obtain ⟨d, rfl, rfl⟩ := commaList_sound hE harguments
    cases hpure
    refine ⟨.call ⟨t, hk⟩ d ⟨closing, hclosing⟩, ?_, rfl⟩
    simp [TrailerTree.tokens]
  | index =>
    have hk : t.kind = .leftBracket := by
      revert hc
      cases t.kind <;> simp [Trailer.ofKind?]
    simp only [applyTrailer, run_bind_eq_ok, run_take_eq_ok] at hrun
    obtain ⟨index, _, hindex, closing, _, ⟨rfl, hclosing⟩, hpure⟩ := hrun
    obtain ⟨d, rfl, rfl⟩ := hE.sound hindex
    cases hpure
    refine ⟨.index ⟨t, hk⟩ d ⟨closing, hclosing⟩, ?_, rfl⟩
    simp [TrailerTree.tokens]
  | member =>
    have hk : t.kind = .dot := by
      revert hc
      cases t.kind <;> simp [Trailer.ofKind?]
    simp only [applyTrailer, run_bind_eq_ok, run_take_eq_ok] at hrun
    obtain ⟨name, _, ⟨rfl, hname⟩, hpure⟩ := hrun
    cases hpure
    exact ⟨.member ⟨t, hk⟩ ⟨name, hname⟩, rfl, rfl⟩

theorem applyTrailer_complete (hb : Begins E.tokens exprStarts) (o : Operand) (d : TrailerTree E)
    (rest : List Token) :
    ∃ t ts c, d.tokens = t :: ts ∧ Trailer.ofKind? t.kind = some c ∧
      (applyTrailer expr o c).run (ts ++ rest) = .ok (d.apply o, rest) := by
  cases d with
  | call opening arguments closing =>
    refine ⟨opening.val, _, .call, rfl, by rw [opening.property]; rfl, ?_⟩
    rw [List.append_assoc, List.cons_append, List.nil_append, applyTrailer,
      run_bind_of_ok (commaList_complete hE hb rfl rfl rfl (by decide) arguments closing.property
        rest), run_take_bind]
    rfl
  | index opening inner closing =>
    refine ⟨opening.val, _, .index, rfl, by rw [opening.property]; rfl, ?_⟩
    have hends : Ends exprContinues (closing.val :: rest) := by
      rw [ends_cons, closing.property]
      rfl
    rw [List.append_assoc, List.cons_append, List.nil_append, applyTrailer,
      run_bind_of_ok (hE.complete inner hends), run_take_bind]
    rfl
  | member dot name =>
    refine ⟨dot.val, [name.val], .member, rfl, by rw [dot.property]; rfl, ?_⟩
    rw [List.cons_append, applyTrailer, run_take_bind]
    rfl

/-- Behind an operand stands no token that would go on with it. -/
theorem operandFrom_ends {t : Token} {input rest : List Token} {a : Operand}
    (hrun : (operandFrom expr operand t).run input = .ok (a, rest)) :
    Ends operandContinues rest := by
  obtain ⟨first, middle, -, hloop⟩ := run_bind_eq_ok.mp hrun
  obtain ⟨-, -, -, hend⟩ := run_extend_sound (@TrailerTree.tokens E) TrailerTree.apply
    (fun _ => True) (fun _ hc hstep => by
      obtain ⟨d, hd, hv⟩ := applyTrailer_sound hE hc hstep
      exact ⟨d, hd, hv, trivial⟩) trivial hloop
  exact ends_operand hend

theorem operandFrom_sound (hO : ReadsPhrase operand O operandContinues)
    (hOends : ∀ {input rest : List Token} {a : Operand},
      operand.run input = .ok (a, rest) → Ends operandContinues rest)
    {t : Token} {input rest : List Token} {a : Operand}
    (hrun : (operandFrom expr operand t).run input = .ok (a, rest)) :
    ∃ d : OperandTree E O, t :: input = d.tokens ++ rest ∧ a = d.value := by
  obtain ⟨first, middle, hfirst, hloop⟩ := run_bind_eq_ok.mp hrun
  rcases primaryFrom_sound hE hO hfirst with
    ⟨sign, argument, inner, hinput, rfl, hinner⟩ | ⟨head, hinput, rfl⟩
  · -- the argument has taken all trailers, so none is left for the operator's result
    rw [run_extend_of_none (trailer_none_of_ends (hOends hinner))] at hloop
    cases hloop
    exact ⟨.unary sign argument, hinput, rfl⟩
  · obtain ⟨trailers, rfl, rfl, -⟩ := run_extend_sound (@TrailerTree.tokens E) TrailerTree.apply
      (fun _ => True) (fun _ hc hstep => by
        obtain ⟨d, hd, hv⟩ := applyTrailer_sound hE hc hstep
        exact ⟨d, hd, hv, trivial⟩) trivial hloop
    refine ⟨.plain head trailers, ?_, rfl⟩
    rw [hinput, OperandTree.tokens, List.append_assoc]

theorem operandFrom_complete (hO : ReadsPhrase operand O operandContinues)
    (hb : Begins E.tokens exprStarts) (d : OperandTree E O) {rest : List Token}
    (hends : Ends operandContinues rest) :
    ∃ t ts, d.tokens = t :: ts ∧
      (operandFrom expr operand t).run (ts ++ rest) = .ok (d.value, rest) := by
  cases d with
  | unary sign argument =>
    refine ⟨sign.token, _, rfl, ?_⟩
    exact (run_bind_of_ok (run_primaryFrom_unary hO sign argument hends)).trans
      (run_extend_of_none (trailer_none_of_ends hends) _ _)
  | plain head trailers =>
    have hloop : run (extend (fun t => Trailer.ofKind? t.kind) (applyTrailer expr) head.value)
        (trailers.flatMap TrailerTree.tokens ++ rest) =
          .ok ((OperandTree.plain head trailers : OperandTree E O).value, rest) :=
      run_extend_complete TrailerTree.tokens TrailerTree.apply (fun _ => True) (fun _ => false)
        (fun o d rest _ _ => by
          obtain ⟨t, ts, c, ht, hc, hrun⟩ := applyTrailer_complete hE hb o d rest
          exact ⟨t, ts, c, ht, hc, hrun, trivial⟩)
        (fun _ _ _ _ => rfl) trailers trivial (fun _ _ => rfl) (trailer_none_of_ends hends)
    obtain ⟨t, ts, ht, hrun⟩ := run_primaryFrom_head hE operand head
      (trailers.flatMap TrailerTree.tokens ++ rest)
    refine ⟨t, ts ++ trailers.flatMap TrailerTree.tokens, ?_, ?_⟩
    · rw [OperandTree.tokens, ht, List.cons_append]
    · rw [List.append_assoc]
      exact (run_bind_of_ok hrun).trans hloop

theorem operandIn_ends {input rest : List Token} {a : Operand}
    (hrun : (operandIn expr operand).run input = .ok (a, rest)) : Ends operandContinues rest := by
  simp only [operandIn, run_bind_eq_ok, run_any_eq_ok] at hrun
  obtain ⟨t, _, rfl, hrun⟩ := hrun
  exact operandFrom_ends hE hrun

theorem operandIn_reads (hO : ReadsPhrase operand O operandContinues)
    (hOends : ∀ {input rest : List Token} {a : Operand},
      operand.run input = .ok (a, rest) → Ends operandContinues rest)
    (hb : Begins E.tokens exprStarts) :
    Reads (operandIn expr operand) (@OperandTree.tokens E O) OperandTree.value
      operandContinues where
  sound := by
    intro input rest a hrun
    simp only [operandIn, run_bind_eq_ok, run_any_eq_ok] at hrun
    obtain ⟨t, _, rfl, hrun⟩ := hrun
    exact operandFrom_sound hE hO hOends hrun
  complete := by
    intro d rest hends
    obtain ⟨t, ts, ht, hrun⟩ := operandFrom_complete hE hO hb d hends
    rw [operandIn, ht, List.cons_append, run_any_bind]
    exact hrun

end

theorem foldl_apply_parenthesized (trailers : List (TrailerTree E)) (o : Operand)
    (h : (trailers.foldl TrailerTree.apply o).parenthesized = true) : trailers = [] := by
  induction trailers generalizing o with
  | nil => rfl
  | cons d trailers ih =>
    have htail := ih (d.apply o) h
    subst htail
    cases d <;> cases h

/-- An operand counts as parenthesized exactly if it is a group without trailers. -/
theorem OperandTree.exists_group {d : OperandTree E O} (h : d.value.parenthesized = true) :
    ∃ group, d = .plain (.group group) [] := by
  cases d with
  | unary sign argument => cases h
  | plain head trailers =>
    have htrailers := foldl_apply_parenthesized trailers head.value h
    subst htrailers
    cases head with
    | group d => exact ⟨d, rfl⟩
    | object d => cases h
    | term d => cases h

theorem binaryOp_none_of_ends {rest : List Token} (h : Ends exprContinues rest) :
    ∀ t ∈ rest.head?, BinaryOp.ofKind? t.kind = none := by
  intro t ht
  have hk := h t ht
  simp only [exprContinues, Bool.or_eq_false_iff] at hk
  simpa using hk.2

theorem link_ends (link : Sign BinaryOp.ofKind? × GroupTree E) (rest : List Token) :
    Ends operandContinues (linkTokens link ++ rest) := by
  rw [linkTokens, List.cons_append, ends_cons]
  exact operandContinues_of_sign link.1

section
variable {right : Parser Operand}
variable (hR : Reads right (@OperandTree.tokens E O) OperandTree.value operandContinues)
include hR

theorem joinOperand_sound {left : Expr × Bool} {op : BinaryOp} {input rest : List Token}
    {a : Expr × Bool} (hrun : (joinOperand right left op).run input = .ok (a, rest)) :
    ∃ d : OperandTree E O, input = d.tokens ++ rest ∧ a = (join left.1 op d.value.expr, true) ∧
      (left.2 = true → d.value.parenthesized = true) := by
  rw [joinOperand, run_bind_eq_ok] at hrun
  obtain ⟨o, middle, ho, hrun⟩ := hrun
  obtain ⟨d, rfl, rfl⟩ := hR.sound ho
  split_ifs at hrun with hchain
  · cases hrun
  · cases hrun
    refine ⟨d, rfl, rfl, ?_⟩
    intro hleft
    simpa [hleft] using hchain

theorem run_joinOperand (left : Expr × Bool) (op : BinaryOp) (d : OperandTree E O)
    (h : left.2 = true → d.value.parenthesized = true) {rest : List Token}
    (hends : Ends operandContinues rest) :
    (joinOperand right left op).run (d.tokens ++ rest) =
      .ok ((join left.1 op d.value.expr, true), rest) := by
  have hchain : ¬ (left.2 && !d.value.parenthesized) = true := by
    cases hl : left.2 with
    | false => simp
    | true => simp [h hl]
  rw [joinOperand, run_bind_of_ok (hR.complete d hends)]
  simp only [if_neg hchain]
  rfl

/-- After its second operand a chain goes on with groups only. -/
theorem links_sound {left a : Expr × Bool} (hleft : left.2 = true) {input rest : List Token}
    (hrun : run (extend (fun t => BinaryOp.ofKind? t.kind) (joinOperand right) left) input =
      .ok (a, rest)) :
    ∃ more : List (Sign BinaryOp.ofKind? × GroupTree E),
      input = more.flatMap linkTokens ++ rest ∧ a.1 = more.foldl joinLink left.1 := by
  obtain ⟨more, hinput, rfl, -⟩ := run_extend_sound linkTokens
    (fun (left : Expr × Bool) link => (joinLink left.1 link, true)) (fun left => left.2 = true)
    (fun {left a t op input rest} hleft hop hstep => by
      obtain ⟨d, rfl, rfl, hgroup⟩ := joinOperand_sound hR hstep
      obtain ⟨group, rfl⟩ := OperandTree.exists_group (hgroup hleft)
      refine ⟨(⟨t, op, hop⟩, group), ?_, rfl, rfl⟩
      simp [OperandTree.tokens, HeadTree.tokens, linkTokens]) hleft hrun
  refine ⟨more, hinput, ?_⟩
  clear hinput hrun hleft
  induction more generalizing left with
  | nil => rfl
  | cons link more ih => exact ih

theorem run_links (more : List (Sign BinaryOp.ofKind? × GroupTree E)) (left : Expr)
    {rest : List Token} (hends : Ends exprContinues rest) :
    run (extend (fun t => BinaryOp.ofKind? t.kind) (joinOperand right) (left, true))
        (more.flatMap linkTokens ++ rest) = .ok ((more.foldl joinLink left, true), rest) := by
  rw [run_extend_complete linkTokens
    (fun (left : Expr × Bool) link => (joinLink left.1 link, true)) (fun left => left.2 = true)
    operandContinues (fun left link rest hleft hends => by
      have hrun := run_joinOperand hR left link.1.op (.plain (.group link.2) []) (fun _ => rfl)
        hends
      simp only [OperandTree.tokens, HeadTree.tokens, List.flatMap_nil, List.append_nil] at hrun
      exact ⟨link.1.token, link.2.tokens, link.1.op, rfl, link.1.spells, hrun, rfl⟩)
    link_ends more rfl (hends.mono fun _ => operandContinues_of_expr) (binaryOp_none_of_ends hends)]
  have hfold : ∀ left : Expr, more.foldl (fun (left : Expr × Bool) link =>
      (joinLink left.1 link, true)) (left, true) = (more.foldl joinLink left, true) := by
    induction more with
    | nil => intro left; rfl
    | cons link more ih => intro left; exact ih (joinLink left link)
  rw [hfold]

theorem chainFrom_sound {first : Operand} {input rest : List Token} {e : Expr}
    (hrun : (chainFrom right first).run input = .ok (e, rest)) :
    (input = rest ∧ e = first.expr) ∨
      ∃ (sign : Sign BinaryOp.ofKind?) (second : OperandTree E O)
        (more : List (Sign BinaryOp.ofKind? × GroupTree E)),
        input = sign.token :: (second.tokens ++ more.flatMap linkTokens) ++ rest ∧
        e = more.foldl joinLink (join first.expr sign.op second.value.expr) := by
  obtain ⟨chain, middle, hloop, hpure⟩ := run_bind_eq_ok.mp hrun
  cases hpure
  by_cases hstop : ∀ t ∈ input.head?, BinaryOp.ofKind? t.kind = none
  · rw [run_extend_of_none hstop] at hloop
    cases hloop
    exact .inl ⟨rfl, rfl⟩
  · cases input with
    | nil => exact absurd nofun hstop
    | cons t input =>
      obtain ⟨op, hop⟩ : ∃ op, BinaryOp.ofKind? t.kind = some op := by
        rw [← Option.ne_none_iff_exists']
        intro hop
        exact hstop (by rintro u ⟨⟩; exact hop)
      rw [run_extend_of_some hop] at hloop
      cases hr : (joinOperand right (first.expr, false) op).run input with
      | error failure => rw [hr] at hloop; cases hloop
      | ok r =>
        rw [hr] at hloop
        obtain ⟨second, hinput, hjoin, -⟩ := joinOperand_sound hR hr
        obtain ⟨more, hmore, hfold⟩ := links_sound hR (by rw [hjoin]) hloop
        refine .inr ⟨⟨t, op, hop⟩, second, more, ?_, ?_⟩
        · rw [hinput, hmore, List.cons_append, List.append_assoc]
        · rw [hfold, hjoin]

omit hR in
theorem run_chainFrom_single (first : Operand) {rest : List Token}
    (hends : Ends exprContinues rest) :
    (chainFrom right first).run rest = .ok (first.expr, rest) :=
  run_bind_of_ok (run_extend_of_none (binaryOp_none_of_ends hends) _ _)

theorem run_chainFrom (first : Operand) (sign : Sign BinaryOp.ofKind?) (second : OperandTree E O)
    (more : List (Sign BinaryOp.ofKind? × GroupTree E)) {rest : List Token}
    (hends : Ends exprContinues rest) :
    (chainFrom right first).run (sign.token :: (second.tokens ++ more.flatMap linkTokens) ++ rest) =
      .ok (more.foldl joinLink (join first.expr sign.op second.value.expr), rest) := by
  have hnext : Ends operandContinues (more.flatMap linkTokens ++ rest) :=
    ends_flatMap link_ends more (hends.mono fun _ => operandContinues_of_expr)
  have hsecond := run_joinOperand hR (first.expr, false) sign.op second nofun hnext
  have hloop : run (extend (fun t => BinaryOp.ofKind? t.kind) (joinOperand right)
      (first.expr, false)) (sign.token :: (second.tokens ++ more.flatMap linkTokens) ++ rest) =
        .ok ((more.foldl joinLink (join first.expr sign.op second.value.expr), true), rest) := by
    rw [List.cons_append, List.append_assoc, run_extend_of_some sign.spells, hsecond]
    exact run_links hR more _ hends
  exact run_bind_of_ok hloop

end

theorem OperandTree.bare_of_starts {d : OperandTree E O} {t : Token} {ts : List Token}
    (ht : t :: ts = d.tokens) (hk : t.kind ≠ .leftBrace) : d.beginsWithObject = false := by
  cases d with
  | unary sign argument => rfl
  | plain head trailers =>
    cases head with
    | group d => rfl
    | object d =>
      rw [OperandTree.tokens, HeadTree.tokens, ObjectTree.tokens, List.cons_append] at ht
      cases ht
      exact absurd d.opening.property hk
    | term d => rfl

/-- An expression that begins with none of the literals that stand alone is a chain. -/
theorem run_exprIn_of_chain {t : Token} (ht : chainStarts t.kind = true) (rest : List Token) :
    (exprIn expr operand).run (t :: rest) =
      (operandFrom expr operand t >>= chainFrom (operandIn expr operand)).run rest := by
  rw [exprIn, run_any_bind]
  split
  · next hk => rw [hk] at ht; cases ht
  · next hk => rw [hk] at ht; cases ht
  · next hk => rw [hk] at ht; cases ht
  · next hk => rw [hk] at ht; cases ht
  · rfl

theorem exprIn_reads (hE : ReadsPhrase expr E exprContinues)
    (hO : ReadsPhrase operand O operandContinues)
    (hOends : ∀ {input rest : List Token} {a : Operand},
      operand.run input = .ok (a, rest) → Ends operandContinues rest)
    (hb : Begins E.tokens exprStarts) :
    Reads (exprIn expr operand) (@ExprTree.tokens E O) ExprTree.value exprContinues where
  sound := by
    intro input rest a hrun
    have hR := operandIn_reads hE hO hOends hb
    simp only [exprIn, run_bind_eq_ok, run_any_eq_ok] at hrun
    obtain ⟨t, _, rfl, hrun⟩ := hrun
    split at hrun
    · next hk =>
      cases hrun
      exact ⟨.template ⟨t, hk⟩, rfl, rfl⟩
    · next hk =>
      cases hrun
      exact ⟨.emptyArray ⟨t, hk⟩, rfl, rfl⟩
    · next hk => exact arrayFrom_sound hE hk hrun
    · next hk =>
      obtain ⟨d, hd, hv⟩ := objectFrom_sound hE hk hrun
      exact ⟨.object d, hd, hv⟩
    · next hk =>
      rw [run_bind_eq_ok] at hrun
      obtain ⟨o, middle, hfirst, hchain⟩ := hrun
      obtain ⟨first, hinput, rfl⟩ := operandFrom_sound hE hO hOends hfirst
      have hbare : first.beginsWithObject = false := by
        obtain ⟨u, us, hu⟩ : ∃ u us, first.tokens = u :: us := by
          obtain ⟨u, us, hu, -⟩ := operandFrom_complete hE hO hb first (ends_nil _)
          exact ⟨u, us, hu⟩
        rw [hu, List.cons_append] at hinput
        cases hinput
        exact OperandTree.bare_of_starts hu.symm hk
      rcases chainFrom_sound hR hchain with ⟨rfl, rfl⟩ | ⟨sign, second, more, rfl, rfl⟩
      · exact ⟨.single first hbare, hinput, rfl⟩
      · refine ⟨.chain first hbare sign second more, ?_, rfl⟩
        rw [hinput, ExprTree.tokens, List.append_assoc]
  complete := by
    intro d rest hends
    have hR := operandIn_reads hE hO hOends hb
    cases d with
    | template token =>
      rw [exprIn, ExprTree.tokens, List.cons_append, run_any_bind]
      simp only [token.property]
      rfl
    | emptyArray brackets =>
      rw [exprIn, ExprTree.tokens, List.cons_append, run_any_bind]
      simp only [brackets.property]
      rfl
    | array opening elements closing =>
      rw [exprIn, ExprTree.tokens, List.cons_append, List.append_assoc, run_any_bind]
      simp only [opening.property]
      exact run_arrayFrom hE hb opening.val elements closing rest
    | object d =>
      rw [exprIn, ExprTree.tokens, ObjectTree.tokens, List.cons_append, List.append_assoc,
        run_any_bind]
      simp only [d.opening.property]
      exact run_objectFrom hE d rest
    | single first bare =>
      obtain ⟨t, ts, ht, hs⟩ := first.begins_of_bare bare
      obtain ⟨t', ts', ht', hrun⟩ := operandFrom_complete hE hO hb first
        (hends.mono fun _ => operandContinues_of_expr)
      cases ht.symm.trans ht'
      rw [ExprTree.tokens, ht, List.cons_append, run_exprIn_of_chain hs, run_bind_of_ok hrun]
      exact run_chainFrom_single _ hends
    | chain first bare sign second more =>
      obtain ⟨t, ts, ht, hs⟩ := first.begins_of_bare bare
      have hnext : Ends operandContinues
          (sign.token :: (second.tokens ++ more.flatMap linkTokens) ++ rest) := by
        rw [List.cons_append, ends_cons]
        exact operandContinues_of_sign sign
      obtain ⟨t', ts', ht', hrun⟩ := operandFrom_complete hE hO hb first hnext
      cases ht.symm.trans ht'
      rw [ExprTree.tokens, List.append_assoc, ht, List.cons_append, run_exprIn_of_chain hs,
        run_bind_of_ok hrun]
      exact run_chainFrom hR _ sign second more hends

theorem exprPhrase_begins (n : Nat) : Begins (exprPhrase n).tokens exprStarts := by
  cases n with
  | zero => exact nofun
  | succ n => exact ExprTree.begins

/-- The parsers with a bound on the levels read the expressions and operands within it. -/
theorem expr_operand_reads (n : Nat) :
    ReadsPhrase (Parser.expr n) (exprPhrase n) exprContinues ∧
      ReadsPhrase (Parser.operand n) (operandPhrase n) operandContinues ∧
      ∀ {input rest : List Token} {a : Operand},
        run (Parser.operand n) input = .ok (a, rest) → Ends operandContinues rest := by
  induction n with
  | zero => exact ⟨⟨nofun, nofun⟩, ⟨nofun, nofun⟩, nofun⟩
  | succ n ih =>
    obtain ⟨hE, hO, hOends⟩ := ih
    have hb := exprPhrase_begins n
    exact ⟨exprIn_reads hE hO hOends hb, operandIn_reads hE hO hOends hb, operandIn_ends hE⟩

theorem expr_reads (n : Nat) : ReadsPhrase (Parser.expr n) (exprPhrase n) exprContinues :=
  (expr_operand_reads n).1

end Scriptwright.Grammar
