import Scriptwright.Proofs.Grammar.Program

/-!
# The grammar is unambiguous

Tokens have at most one derivation. For each kind of tree this is stated with the
tokens behind the tree: if two trees spell the beginning of the same list and each of
them ends where it stands, they are the same tree. Which production was used can be
told from the first token, except that an interface and a function type, a field and
its shorthand, a single operand and a chain, and a branch with and without `else`
differ in what comes after a common beginning. There the token behind the shorter one
is of a kind that would go on with it.
-/

namespace Scriptwright.Grammar

/-- Two trees with the same tokens, up to where each of them ends, are the same. -/
def Unambiguous {δ : Type} (tokens : δ → List Token) (continues : Kind → Bool) : Prop :=
  ∀ ⦃d d' : δ⦄ ⦃rest rest' : List Token⦄, Ends continues rest → Ends continues rest' →
    tokens d ++ rest = tokens d' ++ rest' → d = d' ∧ rest = rest'

@[simp] theorem ends_never (rest : List Token) : Ends (fun _ => false) rest := by
  intro t _
  rfl

theorem Terminal.eq_of_cons {k : Kind} {t t' : Terminal k} {rest rest' : List Token}
    (h : t.val :: rest = t'.val :: rest') : t = t' ∧ rest = rest' := by
  obtain ⟨ht, hrest⟩ := List.cons.inj h
  exact ⟨Subtype.ext ht, hrest⟩

theorem Terminal.cons_ne {k k' : Kind} (hk : k ≠ k') (t : Terminal k) (t' : Terminal k')
    (rest rest' : List Token) : t.val :: rest ≠ t'.val :: rest' := by
  intro h
  apply hk
  rw [← t.property, ← t'.property, (List.cons.inj h).1]

theorem Sign.eq_of_token {ω : Type} {table : Kind → Option ω} {s s' : Sign table}
    (h : s.token = s'.token) : s = s' := by
  obtain ⟨token, op, spells⟩ := s
  obtain ⟨token', op', spells'⟩ := s'
  cases h
  cases spells.symm.trans spells'
  rfl

theorem TermTree.eq_of_token {d d' : TermTree} (h : d.token = d'.token) : d = d' := by
  obtain ⟨token, value, denotes⟩ := d
  obtain ⟨token', value', denotes'⟩ := d'
  cases h
  cases denotes.symm.trans denotes'
  rfl

section Lists
variable {δ : Type} {tokens : δ → List Token} {continues starts : Kind → Bool}

theorem Unambiguous.flatMap (h : Unambiguous tokens continues) (hb : Begins tokens starts)
    (hk : ∀ k, starts k = true → continues k = false) {ds ds' : List δ}
    {rest rest' : List Token} (hrest : Ends continues rest) (hrest' : Ends continues rest')
    (hstop : Ends starts rest) (hstop' : Ends starts rest')
    (heq : ds.flatMap tokens ++ rest = ds'.flatMap tokens ++ rest') : ds = ds' ∧ rest = rest' := by
  have hne : ∀ (d : δ) (more : List Token) {rest : List Token}, Ends starts rest →
      tokens d ++ more ≠ rest := by
    rintro d more _ hstop rfl
    obtain ⟨t, ts, ht, hs⟩ := hb d
    rw [ht, List.cons_append, ends_cons, hs] at hstop
    cases hstop
  induction ds generalizing ds' with
  | nil =>
    cases ds' with
    | nil => exact ⟨rfl, heq⟩
    | cons d' ds' =>
      rw [List.flatMap_cons, List.append_assoc] at heq
      exact absurd heq.symm (hne d' _ hstop)
  | cons d ds ih =>
    cases ds' with
    | nil =>
      rw [List.flatMap_cons, List.append_assoc] at heq
      exact absurd heq (hne d _ hstop')
    | cons d' ds' =>
      rw [List.flatMap_cons, List.append_assoc, List.flatMap_cons, List.append_assoc] at heq
      have hends := ends_flatMap (hb.ends hk) ds hrest
      have hends' := ends_flatMap (hb.ends hk) ds' hrest'
      obtain ⟨rfl, hmore⟩ := h hends hends' heq
      obtain ⟨rfl, hrest⟩ := ih hmore
      exact ⟨rfl, hrest⟩

theorem moreTokens_unambiguous (h : Unambiguous tokens continues) :
    Unambiguous (CommaList.moreTokens tokens) continues := by
  rintro ⟨comma, d⟩ ⟨comma', d'⟩ rest rest' hrest hrest' heq
  obtain ⟨rfl, hmore⟩ := Terminal.eq_of_cons heq
  obtain ⟨rfl, hrest⟩ := h hrest hrest' hmore
  exact ⟨rfl, hrest⟩

theorem begins_moreTokens : Begins (CommaList.moreTokens tokens) (· == .comma) := by
  intro item
  exact ⟨item.1.val, _, rfl, by simp [item.1.property]⟩

/-- A list with commas that stands before a closing token. -/
theorem CommaList.eq_of_closed {close : Kind} (h : Unambiguous tokens continues)
    (hb : Begins tokens starts) (hstarts : starts close = false)
    (hcomma : continues .comma = false) (hclose : continues close = false) (hne : close ≠ .comma)
    {d d' : CommaList δ} {t t' : Terminal close} {rest rest' : List Token}
    (heq : d.tokens tokens ++ t.val :: rest = d'.tokens tokens ++ t'.val :: rest') :
    d = d' ∧ t = t' ∧ rest = rest' := by
  have hitem : ∀ (first : δ) (more : List Token) (t : Terminal close) (rest : List Token),
      tokens first ++ more ≠ t.val :: rest := by
    intro first more t rest heq
    obtain ⟨u, us, hu, hs⟩ := hb first
    rw [hu] at heq
    rw [(List.cons.inj heq).1, t.property, hstarts] at hs
    cases hs
  have hends : ∀ (t : Terminal close) (rest : List Token), Ends continues (t.val :: rest) := by
    intro t rest
    rw [ends_cons, t.property]
    exact hclose
  have hstop : ∀ (t : Terminal close) (rest : List Token), Ends (· == .comma) (t.val :: rest) := by
    intro t rest
    rw [ends_cons, t.property]
    exact beq_false_of_ne hne
  have hk : ∀ k, (k == .comma) = true → continues k = false := by
    intro k hk
    rw [eq_of_beq hk]
    exact hcomma
  cases d with
  | none =>
    cases d' with
    | none => exact ⟨rfl, Terminal.eq_of_cons heq⟩
    | some first' more' =>
      rw [CommaList.tokens, CommaList.tokens, List.append_assoc] at heq
      exact absurd heq.symm (hitem first' _ t rest)
  | some first more =>
    cases d' with
    | none =>
      rw [CommaList.tokens, CommaList.tokens, List.append_assoc] at heq
      exact absurd heq (hitem first _ t' rest')
    | some first' more' =>
      rw [CommaList.tokens, CommaList.tokens, List.append_assoc, List.append_assoc] at heq
      have hb : Begins (CommaList.moreTokens tokens) (· == .comma) := begins_moreTokens
      obtain ⟨rfl, hmore⟩ := h (ends_flatMap (hb.ends hk) more (hends t rest))
        (ends_flatMap (hb.ends hk) more' (hends t' rest')) heq
      obtain ⟨rfl, hclosed⟩ := (moreTokens_unambiguous h).flatMap hb hk
        (hends t rest) (hends t' rest') (hstop t rest) (hstop t' rest') hmore
      exact ⟨rfl, Terminal.eq_of_cons hclosed⟩

end Lists

section TypeExpressions
variable {T : Phrase TypeExpr}

theorem property_unambiguous (h : Unambiguous T.tokens typeContinues) :
    Unambiguous (@PropertyTree.tokens T) typeContinues := by
  rintro ⟨name, colon, type⟩ ⟨name', colon', type'⟩ rest rest' hrest hrest' heq
  obtain ⟨rfl, hcolon⟩ := Terminal.eq_of_cons heq
  obtain ⟨rfl, htype⟩ := Terminal.eq_of_cons hcolon
  obtain ⟨rfl, hend⟩ := h hrest hrest' htype
  exact ⟨rfl, hend⟩

theorem shape_unambiguous (h : Unambiguous T.tokens typeContinues) :
    Unambiguous (@ShapeTree.tokens T) (fun _ => false) := by
  rintro ⟨opening, properties, closing⟩ ⟨opening', properties', closing'⟩ rest rest' - - heq
  simp only [ShapeTree.tokens, List.cons_append, List.append_assoc, List.nil_append] at heq
  obtain ⟨rfl, hproperties⟩ := Terminal.eq_of_cons heq
  obtain ⟨rfl, rfl, hend⟩ := CommaList.eq_of_closed (property_unambiguous h) begins_property
    rfl rfl rfl (by decide) hproperties
  exact ⟨rfl, hend⟩

theorem TypeTree.unambiguous (h : Unambiguous T.tokens typeContinues) :
    Unambiguous (@TypeTree.tokens T) typeContinues := by
  have hcolon : ∀ (colon : Terminal .colon) (more : List Token),
      ¬ Ends typeContinues (colon.val :: more) := by
    intro colon more hends
    rw [ends_cons, colon.property] at hends
    cases hends
  intro d d' rest rest' hrest hrest' heq
  cases d <;> cases d' <;> try exact absurd heq (Terminal.cons_ne (by decide) _ _ _ _)
  case array.array brackets element brackets' element' =>
    obtain ⟨rfl, helement⟩ := Terminal.eq_of_cons heq
    obtain ⟨rfl, hend⟩ := h hrest hrest' helement
    exact ⟨rfl, hend⟩
  case interface.interface shape shape' =>
    obtain ⟨rfl, hend⟩ := shape_unambiguous h (ends_never _) (ends_never _) heq
    exact ⟨rfl, hend⟩
  case interface.function shape shape' colon result =>
    rw [TypeTree.tokens, TypeTree.tokens, List.append_assoc] at heq
    obtain ⟨-, rfl⟩ := shape_unambiguous h (ends_never _) (ends_never _) heq
    exact absurd hrest (hcolon colon _)
  case function.interface shape colon result shape' =>
    rw [TypeTree.tokens, TypeTree.tokens, List.append_assoc] at heq
    obtain ⟨-, rfl⟩ := shape_unambiguous h (ends_never _) (ends_never _) heq
    exact absurd hrest' (hcolon colon _)
  case function.function shape colon result shape' colon' result' =>
    rw [TypeTree.tokens, TypeTree.tokens, List.append_assoc, List.append_assoc] at heq
    obtain ⟨rfl, hfunction⟩ := shape_unambiguous h (ends_never _) (ends_never _) heq
    obtain ⟨rfl, hresult⟩ := Terminal.eq_of_cons hfunction
    obtain ⟨rfl, hend⟩ := h hrest hrest' hresult
    exact ⟨rfl, hend⟩
  case simple.simple name name' =>
    obtain ⟨rfl, hend⟩ := Terminal.eq_of_cons heq
    exact ⟨rfl, hend⟩

theorem typePhrase_unambiguous (n : Nat) : Unambiguous (typePhrase n).tokens typeContinues := by
  induction n with
  | zero => exact nofun
  | succ n ih => exact TypeTree.unambiguous ih

end TypeExpressions

section Expressions
variable {E : Phrase Expr} {O : Phrase Operand}

theorem field_unambiguous (h : Unambiguous E.tokens exprContinues) :
    Unambiguous (@FieldTree.tokens E) fieldContinues := by
  have hexpr : ∀ k, fieldContinues k = false → exprContinues k = false := by
    intro k hk
    exact (Bool.or_eq_false_iff.mp hk).1
  have hcolon : ∀ (colon : Terminal .colon) (more : List Token),
      ¬ Ends fieldContinues (colon.val :: more) := by
    intro colon more hends
    rw [ends_cons, colon.property] at hends
    cases hends
  intro d d' rest rest' hrest hrest' heq
  cases d <;> cases d' <;> obtain ⟨rfl, hname⟩ := Terminal.eq_of_cons heq
  case named.named colon value colon' value' =>
    obtain ⟨rfl, hvalue⟩ := Terminal.eq_of_cons hname
    obtain ⟨rfl, hend⟩ := h (hrest.mono hexpr) (hrest'.mono hexpr) hvalue
    exact ⟨rfl, hend⟩
  case named.shorthand colon value =>
    cases hname
    exact absurd hrest' (hcolon colon _)
  case shorthand.named colon value =>
    cases hname
    exact absurd hrest (hcolon colon _)
  case shorthand.shorthand => exact ⟨rfl, hname⟩

theorem object_unambiguous (h : Unambiguous E.tokens exprContinues) :
    Unambiguous (@ObjectTree.tokens E) (fun _ => false) := by
  rintro ⟨opening, fields, closing⟩ ⟨opening', fields', closing'⟩ rest rest' - - heq
  simp only [ObjectTree.tokens, List.cons_append, List.append_assoc, List.nil_append] at heq
  obtain ⟨rfl, hfields⟩ := Terminal.eq_of_cons heq
  obtain ⟨rfl, rfl, hend⟩ := CommaList.eq_of_closed (field_unambiguous h) FieldTree.begins
    rfl rfl rfl (by decide) hfields
  exact ⟨rfl, hend⟩

/-- An expression in front of a closing parenthesis or bracket. -/
theorem enclosed_eq (h : Unambiguous E.tokens exprContinues) {close : Kind}
    (hclose : exprContinues close = false) {d d' : E.Tree} {t t' : Terminal close}
    {rest rest' : List Token}
    (heq : E.tokens d ++ t.val :: rest = E.tokens d' ++ t'.val :: rest') :
    d = d' ∧ t = t' ∧ rest = rest' := by
  have hends : ∀ (t : Terminal close) (rest : List Token), Ends exprContinues (t.val :: rest) := by
    intro t rest
    rw [ends_cons, t.property]
    exact hclose
  obtain ⟨rfl, hclosed⟩ := h (hends t rest) (hends t' rest') heq
  exact ⟨rfl, Terminal.eq_of_cons hclosed⟩

theorem group_unambiguous (h : Unambiguous E.tokens exprContinues) :
    Unambiguous (@GroupTree.tokens E) (fun _ => false) := by
  rintro ⟨opening, inner, closing⟩ ⟨opening', inner', closing'⟩ rest rest' - - heq
  simp only [GroupTree.tokens, List.cons_append, List.append_assoc, List.nil_append] at heq
  obtain ⟨rfl, hinner⟩ := Terminal.eq_of_cons heq
  obtain ⟨rfl, rfl, hend⟩ := enclosed_eq h rfl hinner
  exact ⟨rfl, hend⟩

theorem trailer_unambiguous (h : Unambiguous E.tokens exprContinues)
    (hb : Begins E.tokens exprStarts) : Unambiguous (@TrailerTree.tokens E) (fun _ => false) := by
  intro d d' rest rest' _ _ heq
  cases d <;> cases d' <;> try exact absurd heq (Terminal.cons_ne (by decide) _ _ _ _)
  case call.call opening arguments closing opening' arguments' closing' =>
    simp only [TrailerTree.tokens, List.cons_append, List.append_assoc, List.nil_append] at heq
    obtain ⟨rfl, harguments⟩ := Terminal.eq_of_cons heq
    obtain ⟨rfl, rfl, hend⟩ :=
      CommaList.eq_of_closed h hb rfl rfl rfl (by decide) harguments
    exact ⟨rfl, hend⟩
  case index.index opening inner closing opening' inner' closing' =>
    simp only [TrailerTree.tokens, List.cons_append, List.append_assoc, List.nil_append] at heq
    obtain ⟨rfl, hinner⟩ := Terminal.eq_of_cons heq
    obtain ⟨rfl, rfl, hend⟩ := enclosed_eq h rfl hinner
    exact ⟨rfl, hend⟩
  case member.member dot name dot' name' =>
    obtain ⟨rfl, hname⟩ := Terminal.eq_of_cons heq
    obtain ⟨rfl, hend⟩ := Terminal.eq_of_cons hname
    exact ⟨rfl, hend⟩

theorem TrailerTree.begins : Begins (@TrailerTree.tokens E) operandContinues := by
  intro d
  cases d with
  | call opening => exact ⟨opening.val, _, rfl, by rw [opening.property]; rfl⟩
  | index opening => exact ⟨opening.val, _, rfl, by rw [opening.property]; rfl⟩
  | member dot => exact ⟨dot.val, _, rfl, by rw [dot.property]; rfl⟩

theorem TermTree.cons_ne {k : Kind} (hk : termStarts k = false) (d : TermTree) (t : Terminal k)
    (rest rest' : List Token) : d.token :: rest ≠ t.val :: rest' := by
  intro h
  have hs := d.starts
  rw [(List.cons.inj h).1, t.property, hk] at hs
  cases hs

theorem head_unambiguous (h : Unambiguous E.tokens exprContinues) :
    Unambiguous (@HeadTree.tokens E) (fun _ => false) := by
  intro d d' rest rest' hrest hrest' heq
  cases d <;> cases d' <;> try exact absurd heq (Terminal.cons_ne (by decide) _ _ _ _)
  case group.group d d' =>
    obtain ⟨rfl, hend⟩ := group_unambiguous h hrest hrest' heq
    exact ⟨rfl, hend⟩
  case group.term d d' => exact absurd heq.symm (d'.cons_ne rfl d.opening _ _)
  case object.object d d' =>
    obtain ⟨rfl, hend⟩ := object_unambiguous h hrest hrest' heq
    exact ⟨rfl, hend⟩
  case object.term d d' => exact absurd heq.symm (d'.cons_ne rfl d.opening _ _)
  case term.group d d' => exact absurd heq (d.cons_ne rfl d'.opening _ _)
  case term.object d d' => exact absurd heq (d.cons_ne rfl d'.opening _ _)
  case term.term d d' =>
    obtain ⟨htoken, hend⟩ := List.cons.inj heq
    cases TermTree.eq_of_token htoken
    exact ⟨rfl, hend⟩

theorem HeadTree.front_ne (sign : Sign UnaryOp.ofKind?) (d : HeadTree E)
    (rest rest' : List Token) : sign.token :: rest ≠ d.tokens ++ rest' := by
  have hs := sign.spells
  intro heq
  cases d with
  | group d =>
    rw [(List.cons.inj heq).1, d.opening.property] at hs
    cases hs
  | object d =>
    rw [(List.cons.inj heq).1, d.opening.property] at hs
    cases hs
  | term d =>
    rw [(List.cons.inj heq).1, unaryOp_none_of_term d.starts] at hs
    cases hs

theorem OperandTree.cons_ne {k : Kind} (hk : chainStarts k = false) (t : Terminal k)
    {d : OperandTree E O} (bare : d.beginsWithObject = false) (rest rest' : List Token) :
    t.val :: rest ≠ d.tokens ++ rest' := by
  obtain ⟨u, us, hu, hs⟩ := d.begins_of_bare bare
  rw [hu]
  intro h
  rw [← (List.cons.inj h).1, t.property, hk] at hs
  cases hs

theorem ends_sign (sign : Sign BinaryOp.ofKind?) (rest : List Token) :
    Ends operandContinues (sign.token :: rest) :=
  ends_cons.mpr (operandContinues_of_sign sign)

theorem ends_binaryOp {rest : List Token} (h : Ends exprContinues rest) :
    Ends (fun k => (BinaryOp.ofKind? k).isSome) rest := by
  refine h.mono ?_
  intro k hk
  exact (Bool.or_eq_false_iff.mp hk).2

theorem not_ends_sign (sign : Sign BinaryOp.ofKind?) (rest : List Token) :
    ¬ Ends exprContinues (sign.token :: rest) := by
  intro h
  have hsign := ends_binaryOp h
  rw [ends_cons, sign.spells] at hsign
  cases hsign

theorem begins_link : Begins (@linkTokens E) (fun k => (BinaryOp.ofKind? k).isSome) := by
  intro link
  exact ⟨link.1.token, _, rfl, by simp [link.1.spells]⟩

theorem ends_links (more : List (Sign BinaryOp.ofKind? × GroupTree E)) {rest : List Token}
    (h : Ends exprContinues rest) : Ends operandContinues (more.flatMap linkTokens ++ rest) := by
  refine ends_flatMap ?_ more (h.mono fun _ => operandContinues_of_expr)
  intro link later
  exact ends_sign link.1 _

theorem link_unambiguous (h : Unambiguous E.tokens exprContinues) :
    Unambiguous (@linkTokens E) (fun _ => false) := by
  rintro ⟨sign, d⟩ ⟨sign', d'⟩ rest rest' hrest hrest' heq
  obtain ⟨htoken, hgroup⟩ := List.cons.inj heq
  cases Sign.eq_of_token htoken
  obtain ⟨rfl, hend⟩ := group_unambiguous h hrest hrest' hgroup
  exact ⟨rfl, hend⟩

section
variable (hE : Unambiguous E.tokens exprContinues) (hb : Begins E.tokens exprStarts)
  (hO : Unambiguous O.tokens operandContinues)
include hE hb hO

theorem OperandTree.unambiguous : Unambiguous (@OperandTree.tokens E O) operandContinues := by
  intro d d' rest rest' hrest hrest' heq
  cases d with
  | unary sign argument =>
    cases d' with
    | unary sign' argument' =>
      obtain ⟨htoken, hargument⟩ := List.cons.inj heq
      cases Sign.eq_of_token htoken
      obtain ⟨rfl, hend⟩ := hO hrest hrest' hargument
      exact ⟨rfl, hend⟩
    | plain head' trailers' =>
      rw [OperandTree.tokens, OperandTree.tokens, List.append_assoc] at heq
      exact absurd heq (head'.front_ne sign _ _)
  | plain head trailers =>
    cases d' with
    | unary sign' argument' =>
      rw [OperandTree.tokens, OperandTree.tokens, List.append_assoc] at heq
      exact absurd heq.symm (head.front_ne sign' _ _)
    | plain head' trailers' =>
      rw [OperandTree.tokens, OperandTree.tokens, List.append_assoc, List.append_assoc] at heq
      obtain ⟨rfl, htrailers⟩ := head_unambiguous hE (ends_never _) (ends_never _) heq
      obtain ⟨rfl, hend⟩ := (trailer_unambiguous hE hb).flatMap TrailerTree.begins
        (fun _ _ => rfl) (ends_never _) (ends_never _) hrest hrest' htrailers
      exact ⟨rfl, hend⟩

/-- The operands and operators of two chains agree one by one. -/
theorem ExprTree.chain_eq {first first' second second' : OperandTree E O}
    {bare : first.beginsWithObject = false} {bare' : first'.beginsWithObject = false}
    {sign sign' : Sign BinaryOp.ofKind?} {more more' : List (Sign BinaryOp.ofKind? × GroupTree E)}
    {rest rest' : List Token} (hrest : Ends exprContinues rest) (hrest' : Ends exprContinues rest')
    (heq : first.tokens ++ sign.token :: (second.tokens ++ (more.flatMap linkTokens ++ rest)) =
      first'.tokens ++ sign'.token :: (second'.tokens ++ (more'.flatMap linkTokens ++ rest'))) :
    ExprTree.chain first bare sign second more = .chain first' bare' sign' second' more' ∧
      rest = rest' := by
  have hoperand := OperandTree.unambiguous hE hb hO
  obtain ⟨rfl, hsign⟩ := hoperand (ends_sign sign _) (ends_sign sign' _) heq
  obtain ⟨htoken, hsecond⟩ := List.cons.inj hsign
  cases Sign.eq_of_token htoken
  obtain ⟨rfl, hmore⟩ := hoperand (ends_links more hrest) (ends_links more' hrest') hsecond
  obtain ⟨rfl, hend⟩ := (link_unambiguous hE).flatMap begins_link (fun _ _ => rfl) (ends_never _)
    (ends_never _) (ends_binaryOp hrest) (ends_binaryOp hrest') hmore
  exact ⟨rfl, hend⟩

theorem ExprTree.unambiguous : Unambiguous (@ExprTree.tokens E O) exprContinues := by
  intro d d' rest rest' hrest hrest' heq
  have hoperand := OperandTree.unambiguous hE hb hO
  have hends := hrest.mono fun _ => operandContinues_of_expr
  have hends' := hrest'.mono fun _ => operandContinues_of_expr
  cases d <;> cases d' <;>
    simp only [ExprTree.tokens, List.cons_append, List.append_assoc, List.nil_append] at heq <;>
    try first
      | exact absurd heq (Terminal.cons_ne (by decide) _ _ _ _)
      | exact absurd heq (OperandTree.cons_ne (by decide) _ ‹_› _ _)
      | exact absurd heq.symm (OperandTree.cons_ne (by decide) _ ‹_› _ _)
  case template.template token token' =>
    obtain ⟨rfl, hend⟩ := Terminal.eq_of_cons heq
    exact ⟨rfl, hend⟩
  case emptyArray.emptyArray brackets brackets' =>
    obtain ⟨rfl, hend⟩ := Terminal.eq_of_cons heq
    exact ⟨rfl, hend⟩
  case array.array opening elements closing opening' elements' closing' =>
    obtain ⟨rfl, helements⟩ := Terminal.eq_of_cons heq
    obtain ⟨rfl, rfl, hend⟩ := CommaList.eq_of_closed hE hb rfl rfl rfl (by decide) helements
    exact ⟨rfl, hend⟩
  case object.object d d' =>
    obtain ⟨rfl, hend⟩ := object_unambiguous hE (ends_never _) (ends_never _) heq
    exact ⟨rfl, hend⟩
  case single.single first bare first' bare' =>
    obtain ⟨rfl, hend⟩ := hoperand hends hends' heq
    exact ⟨rfl, hend⟩
  case single.chain first bare first' bare' sign second more =>
    obtain ⟨-, rfl⟩ := hoperand hends (ends_sign sign _) heq
    exact absurd hrest (not_ends_sign sign _)
  case chain.single first bare sign second more first' bare' =>
    obtain ⟨-, rfl⟩ := hoperand (ends_sign sign _) hends' heq
    exact absurd hrest' (not_ends_sign sign _)
  case chain.chain => exact ExprTree.chain_eq hE hb hO hrest hrest' heq

end

theorem exprPhrase_operandPhrase_unambiguous (n : Nat) :
    Unambiguous (exprPhrase n).tokens exprContinues ∧
      Unambiguous (operandPhrase n).tokens operandContinues := by
  induction n with
  | zero => exact ⟨nofun, nofun⟩
  | succ n ih =>
    exact ⟨ExprTree.unambiguous ih.1 (exprPhrase_begins n) ih.2,
      OperandTree.unambiguous ih.1 (exprPhrase_begins n) ih.2⟩

theorem exprPhrase_unambiguous (n : Nat) : Unambiguous (exprPhrase n).tokens exprContinues :=
  (exprPhrase_operandPhrase_unambiguous n).1

end Expressions

section Programs
variable {T : Phrase TypeExpr} {E : Phrase Expr} {B : Phrase Block}

theorem condition_unambiguous : Unambiguous ConditionTree.tokens (fun _ => false) := by
  rintro ⟨name, sign, right⟩ ⟨name', sign', right'⟩ rest rest' - - heq
  obtain ⟨rfl, hsign⟩ := Terminal.eq_of_cons heq
  obtain ⟨htoken, hright⟩ := List.cons.inj hsign
  cases Sign.eq_of_token htoken
  obtain ⟨htoken, hend⟩ := List.cons.inj hright
  cases TermTree.eq_of_token htoken
  exact ⟨rfl, hend⟩

theorem assignment_unambiguous (h : Unambiguous E.tokens exprContinues) :
    Unambiguous (@AssignmentTree.tokens E) exprContinues := by
  rintro ⟨name, equal, right⟩ ⟨name', equal', right'⟩ rest rest' hrest hrest' heq
  obtain ⟨rfl, hequal⟩ := Terminal.eq_of_cons heq
  obtain ⟨rfl, hright⟩ := Terminal.eq_of_cons hequal
  obtain ⟨rfl, hend⟩ := h hrest hrest' hright
  exact ⟨rfl, hend⟩

theorem begins_leftBrace_ends (hb : Begins B.tokens (· == .leftBrace)) (d : B.Tree)
    (rest : List Token) : Ends exprContinues (B.tokens d ++ rest) := by
  refine hb.ends ?_ d rest
  intro k hk
  rw [eq_of_beq hk]
  rfl

theorem ends_terminal {k : Kind} {continues : Kind → Bool} (hk : continues k = false)
    (t : Terminal k) (rest : List Token) : Ends continues (t.val :: rest) := by
  rw [ends_cons, t.property]
  exact hk

theorem not_ends_else (otherwise : Terminal (.keyword .elseWord)) (rest : List Token) :
    ¬ Ends statementContinues (otherwise.val :: rest) := by
  intro h
  rw [ends_cons, otherwise.property] at h
  cases h

section
variable (hE : Unambiguous E.tokens exprContinues) (hB : Unambiguous B.tokens (fun _ => false))
  (hb : Begins B.tokens (· == .leftBrace))
include hE hB hb

theorem StatementTree.unambiguous : Unambiguous (@StatementTree.tokens E B) statementContinues := by
  intro d d' rest rest' hrest hrest' heq
  cases d <;> cases d' <;>
    simp only [StatementTree.tokens, List.cons_append, List.append_assoc] at heq <;>
    try exact absurd heq (Terminal.cons_ne (by decide) _ _ _ _)
  case assign.assign d d' =>
    obtain ⟨rfl, hend⟩ := assignment_unambiguous hE
      (hrest.mono fun _ => exprContinues_of_statement)
      (hrest'.mono fun _ => exprContinues_of_statement) heq
    exact ⟨rfl, hend⟩
  case branch.branch start condition thenBlock start' condition' thenBlock' =>
    obtain ⟨rfl, hcondition⟩ := Terminal.eq_of_cons heq
    obtain ⟨rfl, hthen⟩ := condition_unambiguous (ends_never _) (ends_never _) hcondition
    obtain ⟨rfl, hend⟩ := hB (ends_never _) (ends_never _) hthen
    exact ⟨rfl, hend⟩
  case branch.branchElse start condition thenBlock start' condition' thenBlock' otherwise' else' =>
    obtain ⟨rfl, hcondition⟩ := Terminal.eq_of_cons heq
    obtain ⟨rfl, hthen⟩ := condition_unambiguous (ends_never _) (ends_never _) hcondition
    obtain ⟨-, rfl⟩ := hB (ends_never _) (ends_never _) hthen
    exact absurd hrest (not_ends_else otherwise' _)
  case branchElse.branch start condition thenBlock otherwise elseBlock start' condition' then' =>
    obtain ⟨rfl, hcondition⟩ := Terminal.eq_of_cons heq
    obtain ⟨rfl, hthen⟩ := condition_unambiguous (ends_never _) (ends_never _) hcondition
    obtain ⟨-, rfl⟩ := hB (ends_never _) (ends_never _) hthen
    exact absurd hrest' (not_ends_else otherwise _)
  case branchElse.branchElse =>
    obtain ⟨rfl, hcondition⟩ := Terminal.eq_of_cons heq
    obtain ⟨rfl, hthen⟩ := condition_unambiguous (ends_never _) (ends_never _) hcondition
    obtain ⟨rfl, hotherwise⟩ := hB (ends_never _) (ends_never _) hthen
    obtain ⟨rfl, helse⟩ := Terminal.eq_of_cons hotherwise
    obtain ⟨rfl, hend⟩ := hB (ends_never _) (ends_never _) helse
    exact ⟨rfl, hend⟩
  case whileLoop.whileLoop start condition body start' condition' body' =>
    obtain ⟨rfl, hcondition⟩ := Terminal.eq_of_cons heq
    obtain ⟨rfl, hbody⟩ := hE (begins_leftBrace_ends hb body rest)
      (begins_leftBrace_ends hb body' rest') hcondition
    obtain ⟨rfl, hend⟩ := hB (ends_never _) (ends_never _) hbody
    exact ⟨rfl, hend⟩
  case forLoop.forLoop start initializer first condition second increment body start' initializer'
      first' condition' second' increment' body' =>
    obtain ⟨rfl, hinitializer⟩ := Terminal.eq_of_cons heq
    obtain ⟨rfl, hfirst⟩ := assignment_unambiguous hE (ends_terminal rfl first _)
      (ends_terminal rfl first' _) hinitializer
    obtain ⟨rfl, hcondition⟩ := Terminal.eq_of_cons hfirst
    obtain ⟨rfl, rfl, hincrement⟩ := enclosed_eq hE rfl hcondition
    obtain ⟨rfl, hbody⟩ := assignment_unambiguous hE (begins_leftBrace_ends hb body rest)
      (begins_leftBrace_ends hb body' rest') hincrement
    obtain ⟨rfl, hend⟩ := hB (ends_never _) (ends_never _) hbody
    exact ⟨rfl, hend⟩

end

theorem parameter_unambiguous :
    Unambiguous (fun name : Terminal .identifier => [name.val]) (fun _ => false) := by
  intro name name' rest rest' _ _ heq
  exact Terminal.eq_of_cons heq

theorem function_unambiguous (hB : Unambiguous B.tokens (fun _ => false)) :
    Unambiguous (@FunctionTree.tokens B) (fun _ => false) := by
  rintro ⟨start, name, equal, opening, parameters, closing, body⟩
    ⟨start', name', equal', opening', parameters', closing', body'⟩ rest rest' hrest hrest' heq
  simp only [FunctionTree.tokens, List.cons_append, List.append_assoc] at heq
  obtain ⟨rfl, hname⟩ := Terminal.eq_of_cons heq
  obtain ⟨rfl, hequal⟩ := Terminal.eq_of_cons hname
  obtain ⟨rfl, hopening⟩ := Terminal.eq_of_cons hequal
  obtain ⟨rfl, hparameters⟩ := Terminal.eq_of_cons hopening
  obtain ⟨rfl, rfl, hbody⟩ := CommaList.eq_of_closed parameter_unambiguous begins_parameter
    rfl rfl rfl (by decide) hparameters
  obtain ⟨rfl, hend⟩ := hB hrest hrest' hbody
  exact ⟨rfl, hend⟩

theorem definition_unambiguous (hT : Unambiguous T.tokens typeContinues) :
    Unambiguous (@DefinitionTree.tokens T) typeContinues := by
  rintro ⟨start, name, equal, type⟩ ⟨start', name', equal', type'⟩ rest rest' hrest hrest' heq
  obtain ⟨rfl, hname⟩ := Terminal.eq_of_cons heq
  obtain ⟨rfl, hequal⟩ := Terminal.eq_of_cons hname
  obtain ⟨rfl, htype⟩ := Terminal.eq_of_cons hequal
  obtain ⟨rfl, hend⟩ := hT hrest hrest' htype
  exact ⟨rfl, hend⟩

theorem DeclarationTree.unambiguous (hT : Unambiguous T.tokens typeContinues)
    (hB : Unambiguous B.tokens (fun _ => false)) :
    Unambiguous (@DeclarationTree.tokens T B) typeContinues := by
  intro d d' rest rest' hrest hrest' heq
  have hfunction : ∀ (d : FunctionTree B) (rest : List Token),
      Ends typeContinues (d.tokens ++ rest) := by
    intro d rest
    exact ends_terminal rfl d.start _
  cases d <;> cases d' <;>
    simp only [DeclarationTree.tokens, List.append_assoc] at heq <;>
    try exact absurd heq (Terminal.cons_ne (by decide) _ _ _ _)
  case function.function d d' =>
    obtain ⟨rfl, hend⟩ := function_unambiguous hB (ends_never _) (ends_never _) heq
    exact ⟨rfl, hend⟩
  case typeName.typeName definition plain definition' plain' =>
    obtain ⟨rfl, hend⟩ := definition_unambiguous hT hrest hrest' heq
    exact ⟨rfl, hend⟩
  case typeName.signed definition plain definition' parameters result signature d sameName =>
    obtain ⟨rfl, -⟩ := definition_unambiguous hT hrest (hfunction d rest') heq
    cases plain.symm.trans signature
  case signed.typeName definition parameters result signature d sameName definition' plain =>
    obtain ⟨rfl, -⟩ := definition_unambiguous hT (hfunction d rest) hrest' heq
    cases plain.symm.trans signature
  case signed.signed definition parameters result signature d sameName definition' parameters'
      result' signature' d' sameName' =>
    obtain ⟨rfl, hd⟩ := definition_unambiguous hT (hfunction d rest) (hfunction d' rest') heq
    obtain ⟨rfl, hend⟩ := function_unambiguous hB (ends_never _) (ends_never _) hd
    cases signature.symm.trans signature'
    exact ⟨rfl, hend⟩

section
variable (hT : Unambiguous T.tokens typeContinues) (hE : Unambiguous E.tokens exprContinues)
  (hB : Unambiguous B.tokens (fun _ => false)) (hb : Begins B.tokens (· == .leftBrace))
include hT hE hB hb

theorem ItemTree.unambiguous : Unambiguous (@ItemTree.tokens T E B) itemContinues := by
  have hitem : ∀ k, itemContinues k = false →
      statementContinues k = false ∧ typeContinues k = false := by
    intro k hk
    exact Bool.or_eq_false_iff.mp hk
  have hne : ∀ (d : DeclarationTree T B) (s : StatementTree E B) (rest rest' : List Token),
      d.tokens ++ rest ≠ s.tokens ++ rest' := by
    intro d s rest rest' heq
    obtain ⟨t, ts, ht, hk⟩ := DeclarationTree.begins d
    obtain ⟨u, us, hu, -⟩ := StatementTree.begins s
    rw [ht, hu] at heq
    rw [(List.cons.inj heq).1] at hk
    exact s.not_declarationStarts hu (declarationStarts_iff.mp hk)
  intro d d' rest rest' hrest hrest' heq
  cases d with
  | declaration d =>
    cases d' with
    | declaration d' =>
      obtain ⟨rfl, hend⟩ := DeclarationTree.unambiguous hT hB
        (hrest.mono fun k hk => (hitem k hk).2) (hrest'.mono fun k hk => (hitem k hk).2) heq
      exact ⟨rfl, hend⟩
    | statement s => exact absurd heq (hne d s rest rest')
  | statement s =>
    cases d' with
    | declaration d => exact absurd heq.symm (hne d s rest' rest)
    | statement s' =>
      obtain ⟨rfl, hend⟩ := StatementTree.unambiguous hE hB hb
        (hrest.mono fun k hk => (hitem k hk).1) (hrest'.mono fun k hk => (hitem k hk).1) heq
      exact ⟨rfl, hend⟩

/-- The items of a block end at a closing brace or at a `return`. -/
theorem items_eq {ds ds' : List (ItemTree T E B)} {t t' : Token} {rest rest' : List Token}
    (ht : t.kind = .rightBrace ∨ t.kind = .keyword .returnWord)
    (ht' : t'.kind = .rightBrace ∨ t'.kind = .keyword .returnWord)
    (heq : ds.flatMap ItemTree.tokens ++ t :: rest = ds'.flatMap ItemTree.tokens ++ t' :: rest') :
    ds = ds' ∧ t :: rest = t' :: rest' := by
  have hends : ∀ {t : Token}, t.kind = .rightBrace ∨ t.kind = .keyword .returnWord →
      ∀ rest, Ends itemContinues (t :: rest) ∧ Ends itemStarts (t :: rest) := by
    intro t ht rest
    rw [ends_cons, ends_cons]
    rcases ht with ht | ht <;> rw [ht] <;> exact ⟨rfl, rfl⟩
  exact (ItemTree.unambiguous hT hE hB hb).flatMap ItemTree.begins
    (fun _ => itemContinues_of_starts) (hends ht rest).1 (hends ht' rest').1
    (hends ht rest).2 (hends ht' rest').2 heq

theorem BlockTree.unambiguous : Unambiguous (@BlockTree.tokens T E B) (fun _ => false) := by
  rintro ⟨opening, items, result, closing⟩ ⟨opening', items', result', closing'⟩ rest rest' - - heq
  simp only [BlockTree.tokens, BlockTree.innerTokens, List.cons_append, List.append_assoc] at heq
  obtain ⟨rfl, hitems⟩ := Terminal.eq_of_cons heq
  have hbrace : ∀ closing : Terminal .rightBrace,
      closing.val.kind = .rightBrace ∨ closing.val.kind = .keyword .returnWord :=
    fun closing => .inl closing.property
  have hreturn : ∀ start : Terminal (.keyword .returnWord),
      start.val.kind = .rightBrace ∨ start.val.kind = .keyword .returnWord :=
    fun start => .inr start.property
  cases result with
  | none =>
    cases result' with
    | none =>
      obtain ⟨rfl, hclosing⟩ := items_eq hT hE hB hb (hbrace closing) (hbrace closing') hitems
      obtain ⟨rfl, hend⟩ := Terminal.eq_of_cons hclosing
      exact ⟨rfl, hend⟩
    | some returned' =>
      obtain ⟨start', value'⟩ := returned'
      obtain ⟨rfl, hne⟩ := items_eq hT hE hB hb (hbrace closing) (hreturn start') hitems
      exact absurd hne (Terminal.cons_ne (by decide) closing start' _ _)
  | some returned =>
    obtain ⟨start, value⟩ := returned
    cases result' with
    | none =>
      obtain ⟨rfl, hne⟩ := items_eq hT hE hB hb (hreturn start) (hbrace closing') hitems
      exact absurd hne (Terminal.cons_ne (by decide) start closing' _ _)
    | some returned' =>
      obtain ⟨start', value'⟩ := returned'
      simp only [List.cons_append, List.append_assoc, List.nil_append] at hitems
      obtain ⟨rfl, hstart⟩ := items_eq hT hE hB hb (hreturn start) (hreturn start') hitems
      obtain ⟨rfl, hvalue⟩ := Terminal.eq_of_cons hstart
      obtain ⟨rfl, rfl, hend⟩ := enclosed_eq hE rfl hvalue
      exact ⟨rfl, hend⟩

end

theorem blockPhrase_begins (n : Nat) : Begins (blockPhrase n).tokens (· == .leftBrace) := by
  cases n with
  | zero => exact nofun
  | succ n =>
    intro d
    exact ⟨d.opening.val, d.innerTokens, rfl, by simp [d.opening.property]⟩

theorem blockPhrase_unambiguous (n : Nat) :
    Unambiguous (blockPhrase n).tokens (fun _ => false) := by
  induction n with
  | zero => exact nofun
  | succ n ih =>
    exact BlockTree.unambiguous (typePhrase_unambiguous n) (exprPhrase_unambiguous n) ih
      (blockPhrase_begins n)

theorem ProgramTree.tokens_injective : Function.Injective ProgramTree.tokens := by
  rintro ⟨ds⟩ ⟨ds'⟩ heq
  have hunambiguous := DeclarationTree.unambiguous (typePhrase_unambiguous nestingLimit)
    (blockPhrase_unambiguous nestingLimit)
  have heq : ds.flatMap DeclarationTree.tokens ++ [] = ds'.flatMap DeclarationTree.tokens ++ [] :=
    congrArg (· ++ []) heq
  obtain ⟨rfl, -⟩ := hunambiguous.flatMap DeclarationTree.begins
    (fun _ => typeContinues_of_declarationStarts) (ends_nil _) (ends_nil _) (ends_nil _)
    (ends_nil _) heq
  rfl

end Programs

/-- The parser accepts the tokens that the grammar derives, and the program is the one
that the derivation stands for. No list of tokens has two derivations. -/
theorem ofTokens_eq_ok_iff_derivation (file : Nat) (tokens : List Token) (p : Program) :
    (Program.ofTokens file tokens = .ok p ↔
      ∃ d : ProgramTree, d.tokens = Token.body tokens ∧ d.value file = p) ∧
    ∀ d d' : ProgramTree, d.tokens = d'.tokens ↔ d = d' :=
  ⟨ofTokens_eq_ok, fun _ _ => ProgramTree.tokens_injective.eq_iff⟩

end Scriptwright.Grammar
