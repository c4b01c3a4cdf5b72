import Scriptwright.Proofs.Parser.Cursor

/-!
# Expressions at a cursor

The readers below go through a type expression or an expression at a cursor. They look at
the kind of the next token before they move on behind it, where a parser takes the token
first and then looks at it. Both come to the same.
-/

namespace Scriptwright.Cursor

def property (inner : Reader TypeExpr) : Reader (String × TypeExpr) := do
  let name ← consume .identifier .propertyName
  let _ ← consume .colon .propertyColon
  return (name.lexeme, ← inner)

def interface (inner : Reader TypeExpr) : Reader TypeExpr := do
  let opening ← advance
  let fields ← commaList .rightBrace (property inner)
  let closing ← consume .rightBrace .interfaceClose
  let shape := .mk (Record.ofList fields) (opening.span.cover closing.span)
  if ← matchKind .colon then
    let result ← inner
    return .function shape result (opening.span.cover result.span)
  return .interface shape

def arrayType (inner : Reader TypeExpr) : Reader TypeExpr := do
  let start ← advance
  let element ← inner
  return .array element (start.span.cover element.span)

def typeExprIn (inner : Reader TypeExpr) : Reader TypeExpr := do
  if ← check .emptyBrackets then arrayType inner
  else if ← check .leftBrace then interface inner
  else
    let name ← consume .identifier .typeExpr
    return .simple name.lexeme name.span

def typeExpr : Nat → Reader TypeExpr
  | 0 => complain .nestingTooDeep
  | room + 1 => typeExprIn (typeExpr room)

def identifier (what : Expectation) : Reader Expr := do
  let name ← consume .identifier what
  return .identifier name.lexeme name.span

def literal : Reader Expr := do
  let t ← peek
  match t.kind, t.value with
  | .number, .number value => return .number value (← advance).span
  | .text, .text content => return .text content (← advance).span
  | .keyword .trueWord, _ => return .boolean true (← advance).span
  | .keyword .falseWord, _ => return .boolean false (← advance).span
  | .keyword .nilWord, _ => return .nil (← advance).span
  | _, _ => complain (.expected .literal)

def literalKinds : List Kind :=
  [.number, .text, .keyword .trueWord, .keyword .falseWord, .keyword .nilWord]

def term (what : Expectation) : Reader Expr := do
  if ← check .identifier then identifier what
  else if ← checkAny literalKinds then literal
  else complain (.expected what)

def template : Reader Expr := do
  let t ← advance
  return .template (t.segments.map Segment.part) t.span

def array (expr : Reader Expr) : Reader Expr := do
  let opening ← advance
  if opening.kind = .emptyBrackets then return .array [] opening.span
  let elements ← commaList .rightBracket expr
  let closing ← consume .rightBracket .elementsClose
  return .array elements (opening.span.cover closing.span)

def field (expr : Reader Expr) : Reader (String × Expr) := do
  let name ← consume .identifier .propertyName
  if ← matchKind .colon then return (name.lexeme, ← expr)
  return (name.lexeme, .identifier name.lexeme name.span)

def object (expr : Reader Expr) : Reader Expr := do
  let opening ← advance
  let fields ← commaList .rightBrace (field expr)
  let closing ← consume .rightBrace .objectClose
  return .object (Record.ofList fields) (opening.span.cover closing.span)

def group (expr : Reader Expr) : Reader Operand := do
  let opening ← advance
  let inner ← expr
  let closing ← consume .rightParen .groupClose
  return ⟨inner.withSpan (opening.span.cover closing.span), true⟩

def unary (op : UnaryOp) (operand : Reader Operand) : Reader Operand := do
  let start ← advance
  let argument ← operand
  return ⟨.unary op argument.expr (start.span.cover argument.expr.span), false⟩

def primary (expr : Reader Expr) (operand : Reader Operand) : Reader Operand := do
  match (← peek).kind with
  | .leftParen => group expr
  | .leftBrace => return ⟨← object expr, false⟩
  | .minus => unary .neg operand
  | .bang => unary .not operand
  | _ => return ⟨← term .expression, false⟩

def call (expr : Reader Expr) (callee : Expr) : Reader Operand := do
  let arguments ← commaList .rightParen expr
  let closing ← consume .rightParen .argumentsClose
  return ⟨.call callee arguments (callee.span.cover closing.span), false⟩

def index (expr : Reader Expr) (object : Expr) : Reader Operand := do
  let index ← expr
  let closing ← consume .rightBracket .indexClose
  return ⟨.member object index true (object.span.cover closing.span), false⟩

def member (object : Expr) : Reader Operand := do
  let name ← consume .identifier .memberName
  return ⟨.member object (.identifier name.lexeme name.span) false
    (object.span.cover name.span), false⟩

def trailerRound (expr : Reader Expr) (operand : Operand) : Reader (ForInStep Operand) := do
  if ← matchKind .leftParen then return .yield (← call expr operand.expr)
  else if ← matchKind .leftBracket then return .yield (← index expr operand.expr)
  else if ← matchKind .dot then return .yield (← member operand.expr)
  else return .done operand

def operandIn (expr : Reader Expr) (operand : Reader Operand) : Reader Operand := do
  let first ← primary expr operand
  loop (trailerRound expr) first

/-- The state of a chain is what has been read of it and the number of operands in that. -/
def chainRound (operand : Reader Operand) (left : Operand × Nat) :
    Reader (ForInStep (Operand × Nat)) := do
  match BinaryOp.ofKind? (← peek).kind with
  | none => return .done left
  | some op =>
    let _ ← advance
    let right ← operand
    let terms := left.2 + 1
    let span := left.1.expr.span.cover right.expr.span
    if terms > 2 && !left.1.parenthesized && !right.parenthesized then raise .ambiguousChain span
    else return .yield (⟨.binary left.1.expr op right.expr span, false⟩, terms)

def chain (operand : Reader Operand) (first : Operand) : Reader Expr := do
  let whole ← loop (chainRound operand) (first, 1)
  return whole.1.expr

def exprIn (expr : Reader Expr) (operand : Reader Operand) : Reader Expr := do
  if ← check .template then template
  else if ← checkAny [.leftBracket, .emptyBrackets] then array expr
  else if ← check .leftBrace then object expr
  else chain (operandIn expr operand) (← operandIn expr operand)

mutual

def expr : Nat → Reader Expr
  | 0 => complain .nestingTooDeep
  | room + 1 => exprIn (expr room) (operand room)

def operand : Nat → Reader Operand
  | 0 => complain .nestingTooDeep
  | room + 1 => operandIn (expr room) (operand room)

end

variable {s : Slice} {i : Nat} {t : Token}

section
variable {inner : Reader TypeExpr} {inner' : Parser TypeExpr} (hinner : Tracks s inner inner')
include hinner

theorem tracks_property : Tracks s (property inner) (Parser.property inner') := by
  intro i hi
  refine (tracks_consume .identifier .propertyName).bind hi fun name j hj _ => ?_
  refine (tracks_consume .colon .propertyColon).bind hj fun _ k hk _ => ?_
  exact hinner.bind hk fun type l hl _ => follows_pure rfl hl

theorem follows_interface (ht : s.Next i t) :
    Follows (· = ·) (interface inner) (Parser.interfaceFrom inner' t) s i (s.rest (i + 1)) := by
  refine follows_advance ht ?_
  refine (tracks_commaList (tracks_property hinner) .rightBrace).bind ht.inside_succ
    fun fields j hj _ => ?_
  refine (tracks_consume .rightBrace .interfaceClose).bind hj fun closing k hk _ => ?_
  refine (tracks_matchKind .colon).bind hk ?_
  rintro (_ | _) l hl -
  · exact follows_pure rfl hl
  · exact hinner.bind hl fun result m hm _ => follows_pure rfl hm

theorem tracks_typeExprIn : Tracks s (typeExprIn inner) (Parser.typeExprIn inner') := by
  intro i hi
  unfold typeExprIn
  rcases hi.cases with hend | ⟨t, ht⟩
  · refine follows_any_of_ended hend ?_
    rw [hend.check_else, hend.check_else, bind_of_error (hend.consume _ _)]
  refine follows_any ht ?_
  split
  case h_1 hk =>
    refine Follows.of_apply_eq ?_ (ht.check_then hk _ _)
    refine follows_advance ht ?_
    exact hinner.bind ht.inside_succ fun element j hj _ => follows_pure rfl hj
  case h_2 hk =>
    refine Follows.of_apply_eq (follows_interface hinner ht) ?_
    rw [ht.check_else (by simp [hk]), ht.check_then hk]
  case h_3 hk =>
    refine (follows_pure rfl ht.inside_succ).of_apply_eq ?_
    rw [ht.check_else (by simp [hk]), ht.check_else (by simp [hk]),
      bind_of_ok (ht.consume_of_eq hk _)]
  case h_4 hbrackets hbrace hname =>
    refine (follows_refuse ht .typeExpr).of_apply_eq ?_
    rw [ht.check_else hbrackets, ht.check_else hbrace, bind_of_error (ht.consume_of_ne hname _),
      ht.complain]

end

theorem tracks_typeExpr (room : Nat) : Tracks s (typeExpr room) (Parser.typeExpr room) := by
  induction room with
  | zero => exact fun i hi => follows_complain .nestingTooDeep hi
  | succ room ih => exact tracks_typeExprIn ih

theorem follows_literal (ht : s.Next i t) (hk : t.kind ∈ literalKinds) (what : Expectation) :
    Follows (· = ·) literal (Parser.term what t) s i (s.rest (i + 1)) := by
  refine Follows.of_apply_eq ?_ (bind_of_ok ht.peek _)
  have hread : ∀ e : Span → Expr,
      Follows (· = ·) (do return e (← advance).span) (pure (e t.span)) s i (s.rest (i + 1)) :=
    fun e => follows_advance ht (follows_pure rfl ht.inside_succ)
  obtain ⟨kind, lexeme, value, span⟩ := t
  simp only [literalKinds, List.mem_cons, List.not_mem_nil, or_false] at hk
  rcases hk with rfl | rfl | rfl | rfl | rfl
  · cases value with
    | number value => exact hread (.number value)
    | _ => exact follows_refuse ht .literal
  · cases value with
    | text content => exact hread (.text content)
    | _ => exact follows_refuse ht .literal
  · exact hread (.boolean true)
  · exact hread (.boolean false)
  · exact hread .nil

theorem follows_term (ht : s.Next i t) (what : Expectation) :
    Follows (· = ·) (term what) (Parser.term what t) s i (s.rest (i + 1)) := by
  unfold term
  by_cases hname : t.kind = .identifier
  · refine Follows.of_apply_eq ?_ (ht.check_then hname _ _)
    rw [Parser.term, hname]
    exact (follows_pure rfl ht.inside_succ).of_apply_eq
      (bind_of_ok (ht.consume_of_eq hname what) _)
  by_cases hliteral : t.kind ∈ literalKinds
  · refine Follows.of_apply_eq (follows_literal ht hliteral what) ?_
    rw [ht.check_else hname, ht.checkAny_then hliteral]
  · have hterm : Parser.term what t = Parser.refuse t what := by
      unfold Parser.term
      split <;> simp_all [literalKinds]
    rw [hterm]
    refine (follows_refuse ht what).of_apply_eq ?_
    rw [ht.check_else hname, ht.checkAny_else hliteral]

theorem tracks_term (what : Expectation) :
    Tracks s (term what) (Parser.any what >>= Parser.term what) := by
  intro i hi
  rcases hi.cases with hend | ⟨t, ht⟩
  · refine follows_any_of_ended hend ?_
    rw [term, hend.check_else, hend.checkAny_else, hend.complain]
  · exact follows_any ht (follows_term ht what)

section
variable {expr : Reader Expr} {expr' : Parser Expr} (hexpr : Tracks s expr expr')
variable {operand : Reader Operand} {operand' : Parser Operand}
include hexpr

theorem tracks_field : Tracks s (field expr) (Parser.field expr') := by
  intro i hi
  refine (tracks_consume .identifier .propertyName).bind hi fun name j hj _ => ?_
  refine (tracks_matchKind .colon).bind hj ?_
  rintro (_ | _) k hk -
  · exact follows_pure rfl hk
  · exact hexpr.bind hk fun value l hl _ => follows_pure rfl hl

theorem follows_object (ht : s.Next i t) :
    Follows (· = ·) (object expr) (Parser.objectFrom expr' t) s i (s.rest (i + 1)) := by
  refine follows_advance ht ?_
  refine (tracks_commaList (tracks_field hexpr) .rightBrace).bind ht.inside_succ
    fun fields j hj _ => ?_
  exact (tracks_consume .rightBrace .objectClose).bind hj fun closing k hk _ => follows_pure rfl hk

theorem follows_array (ht : s.Next i t) (hk : t.kind = .leftBracket) :
    Follows (· = ·) (array expr) (Parser.arrayFrom expr' t) s i (s.rest (i + 1)) := by
  refine follows_advance ht ?_
  rw [if_neg (by simp [hk])]
  refine (tracks_commaList hexpr .rightBracket).bind ht.inside_succ fun elements j hj _ => ?_
  exact (tracks_consume .rightBracket .elementsClose).bind hj
    fun closing k hk _ => follows_pure rfl hk

theorem follows_group (ht : s.Next i t) :
    Follows (· = ·) (group expr) (do
      let inner ← expr'
      let closing ← Parser.take .rightParen .groupClose
      return ⟨inner.withSpan (t.span.cover closing.span), true⟩) s i (s.rest (i + 1)) := by
  refine follows_advance ht ?_
  refine hexpr.bind ht.inside_succ fun inner j hj _ => ?_
  exact (tracks_consume .rightParen .groupClose).bind hj fun closing k hk _ => follows_pure rfl hk

omit hexpr in
theorem follows_unary (hoperand : Tracks s operand operand') (ht : s.Next i t) (op : UnaryOp) :
    Follows (· = ·) (unary op operand) (do
      let argument ← operand'
      return ⟨.unary op argument.expr (t.span.cover argument.expr.span), false⟩)
      s i (s.rest (i + 1)) := by
  refine follows_advance ht ?_
  exact hoperand.bind ht.inside_succ fun argument j hj _ => follows_pure rfl hj

theorem follows_primary (hoperand : Tracks s operand operand') (ht : s.Next i t) :
    Follows (· = ·) (primary expr operand) (Parser.primaryFrom expr' operand' t) s i
      (s.rest (i + 1)) := by
  refine Follows.of_apply_eq ?_ (bind_of_ok ht.peek _)
  unfold Parser.primaryFrom
  split
  case h_1 hk =>
    rw [hk]
    exact follows_group hexpr ht
  case h_2 hk =>
    rw [hk]
    exact (follows_object hexpr ht).bind_eq fun e j hj _ => follows_pure rfl hj
  case h_3 hk =>
    rw [hk]
    exact follows_unary hoperand ht .neg
  case h_4 hk =>
    rw [hk]
    exact follows_unary hoperand ht .not
  case h_5 hparen hbrace hminus hbang =>
    have hunary : UnaryOp.ofKind? t.kind = none := by
      unfold UnaryOp.ofKind?
      split <;> trivial
    rw [hunary]
    dsimp only
    split
    · trivial
    · trivial
    exact (follows_term ht .expression).bind_eq fun e j hj _ => follows_pure rfl hj

theorem tracks_call (callee : Operand) :
    Tracks s (call expr callee.expr) (Parser.applyTrailer expr' callee .call) := by
  intro i hi
  refine (tracks_commaList hexpr .rightParen).bind hi fun arguments j hj _ => ?_
  exact (tracks_consume .rightParen .argumentsClose).bind hj
    fun closing k hk _ => follows_pure rfl hk

theorem tracks_index (object : Operand) :
    Tracks s (index expr object.expr) (Parser.applyTrailer expr' object .index) := by
  intro i hi
  refine hexpr.bind hi fun index j hj _ => ?_
  exact (tracks_consume .rightBracket .indexClose).bind hj fun closing k hk _ => follows_pure rfl hk

omit hexpr in
theorem tracks_member (object : Operand) :
    Tracks s (member object.expr) (Parser.applyTrailer expr' object .member) := by
  intro i hi
  exact (tracks_consume .identifier .memberName).bind hi fun name j hj _ => follows_pure rfl hj

theorem follows_trailerRound (ht : s.Next i t) {trailer : Trailer}
    (htrailer : Trailer.ofKind? t.kind = some trailer) (operand : Operand) :
    Follows (fun x b => ∃ a, x = .yield a ∧ a = b) (trailerRound expr operand)
      (Parser.applyTrailer expr' operand trailer) s i (s.rest (i + 1)) := by
  unfold trailerRound
  unfold Trailer.ofKind? at htrailer
  split at htrailer
  case h_1 hk =>
    cases htrailer
    refine Follows.of_apply_eq ?_ (ht.matchKind_then hk _ _)
    exact (tracks_call hexpr operand _ ht.inside_succ).map fun a b hab => ⟨a, rfl, hab⟩
  case h_2 hk =>
    cases htrailer
    refine Follows.of_apply_eq (j := i + 1) ?_
      ((ht.matchKind_else (by simp [hk]) _ _).trans (ht.matchKind_then hk _ _))
    exact (tracks_index hexpr operand _ ht.inside_succ).map fun a b hab => ⟨a, rfl, hab⟩
  case h_3 hk =>
    cases htrailer
    refine Follows.of_apply_eq (j := i + 1) ?_
      ((ht.matchKind_else (by simp [hk]) _ _).trans
        ((ht.matchKind_else (by simp [hk]) _ _).trans (ht.matchKind_then hk _ _)))
    exact (tracks_member operand _ ht.inside_succ).map fun a b hab => ⟨a, rfl, hab⟩
  case h_4 => cases htrailer

omit hexpr in
theorem trailerRound_of_none (hi : s.Inside i)
    (hnone : ∀ t ∈ (s.rest i).head?, Trailer.ofKind? t.kind = none) (operand : Operand) :
    trailerRound expr operand s i = .ok (.done operand, i) := by
  unfold trailerRound
  rcases hi.cases with hend | ⟨t, ht⟩
  · rw [hend.matchKind_else, hend.matchKind_else, hend.matchKind_else]
    rfl
  · have htrailer : Trailer.ofKind? t.kind = none := hnone t (by simp [ht.rest])
    have hne : ∀ kind trailer, Trailer.ofKind? kind = some trailer → t.kind ≠ kind := by
      rintro _ trailer hsome rfl
      rw [htrailer] at hsome
      cases hsome
    rw [ht.matchKind_else (hne _ .call rfl), ht.matchKind_else (hne _ .index rfl),
      ht.matchKind_else (hne _ .member rfl)]
    rfl

theorem tracks_loop_trailers (first : Operand) :
    Tracks s (loop (trailerRound expr) first)
      (Parser.extend (fun t => Trailer.ofKind? t.kind) (Parser.applyTrailer expr') first) := by
  intro i hi
  refine follows_loop_pure (fun operand i hi hnone => trailerRound_of_none hi hnone operand) ?_ rfl
    hi
  rintro operand _ i t trailer rfl ht htrailer
  exact follows_trailerRound hexpr ht htrailer operand

theorem follows_operandIn (hoperand : Tracks s operand operand') (ht : s.Next i t) :
    Follows (· = ·) (operandIn expr operand) (Parser.operandFrom expr' operand' t) s i
      (s.rest (i + 1)) := by
  exact (follows_primary hexpr hoperand ht).bind_eq
    fun first j hj _ => tracks_loop_trailers hexpr first j hj

omit hexpr in
theorem operandIn_of_ended (hend : s.Ended i) :
    operandIn expr operand s i =
      .error (.report ⟨.expected .expression, "end of input", s.finishSpan⟩) := by
  have hprimary : primary expr operand s i =
      .error (.report ⟨.expected .expression, "end of input", s.finishSpan⟩) := by
    have hpeek : peek s i = .ok (s.token i, i) := rfl
    rw [primary, bind_of_ok hpeek, hend.kind]
    refine bind_of_error ?_ _
    rw [term, hend.check_else, hend.checkAny_else, hend.complain]
  exact bind_of_error hprimary _

theorem tracks_operandIn (hoperand : Tracks s operand operand') :
    Tracks s (operandIn expr operand) (Parser.operandIn expr' operand') := by
  intro i hi
  rcases hi.cases with hend | ⟨t, ht⟩
  · exact follows_any_of_ended hend (operandIn_of_ended hend)
  · exact follows_any ht (follows_operandIn hexpr hoperand ht)

end

/-- From the second operand on the chain itself is not in parentheses. -/
structure ChainState (left : Operand × Nat) (state : Expr × Bool) : Prop where
  expr : state.1 = left.1.expr
  terms : 1 ≤ left.2
  chained : state.2 = decide (2 ≤ left.2)
  bare : 2 ≤ left.2 → left.1.parenthesized = false

theorem ChainState.ambiguous {left : Operand × Nat} {state : Expr × Bool}
    (h : ChainState left state) (right : Operand) :
    (decide (left.2 + 1 > 2) && !left.1.parenthesized && !right.parenthesized) =
      (state.2 && !right.parenthesized) := by
  rw [h.chained]
  by_cases hterms : 2 ≤ left.2
  · have hmore : left.2 + 1 > 2 := Nat.lt_succ_of_le hterms
    simp [h.bare hterms, hterms, hmore]
  · have hfirst : ¬ left.2 + 1 > 2 := fun hmore => hterms (Nat.le_of_lt_succ hmore)
    simp [hterms, hfirst]

section
variable {operand : Reader Operand} {operand' : Parser Operand}

theorem follows_chainRound (hoperand : Tracks s operand operand') (ht : s.Next i t) {op : BinaryOp}
    (hop : BinaryOp.ofKind? t.kind = some op) {left : Operand × Nat} {state : Expr × Bool}
    (hstate : ChainState left state) :
    Follows (fun x b => ∃ a, x = .yield a ∧ ChainState a b) (chainRound operand left)
      (Parser.joinOperand operand' state op) s i (s.rest (i + 1)) := by
  refine Follows.of_apply_eq ?_ (bind_of_ok ht.peek _)
  rw [hop]
  refine follows_advance ht ?_
  refine hoperand.bind ht.inside_succ fun right j hj _ => ?_
  dsimp only
  rw [hstate.ambiguous right, hstate.expr]
  split_ifs
  · exact follows_raise .ambiguousChain _
  · refine follows_pure ⟨_, rfl, ?_⟩ hj
    have hterms := hstate.terms
    exact ⟨rfl, Nat.le_add_left 1 left.2, (decide_eq_true (Nat.succ_le_succ hterms)).symm,
      fun _ => rfl⟩

theorem chainRound_of_none (hi : s.Inside i)
    (hnone : ∀ t ∈ (s.rest i).head?, BinaryOp.ofKind? t.kind = none) (left : Operand × Nat) :
    chainRound operand left s i = .ok (.done left, i) := by
  have hpeek : peek s i = .ok (s.token i, i) := rfl
  have hop : BinaryOp.ofKind? (s.token i).kind = none := by
    rcases hi.cases with hend | ⟨t, ht⟩
    · rw [hend.kind]
      rfl
    · rw [ht.token_eq]
      exact hnone t (by simp [ht.rest])
  rw [chainRound, bind_of_ok hpeek, hop]
  rfl

theorem tracks_chain (hoperand : Tracks s operand operand') (first : Operand) :
    Tracks s (chain operand first) (Parser.chainFrom operand' first) := by
  intro i hi
  have hfirst : ChainState (first, 1) (first.expr, false) :=
    ⟨rfl, Nat.le_refl 1, rfl, fun h => absurd h (Nat.not_succ_le_self 1)⟩
  refine Follows.bind (follows_loop_pure (fun left i hi hnone => chainRound_of_none hi hnone left)
    (fun left state i t op hstate ht hop => follows_chainRound hoperand ht hop hstate) hfirst hi) ?_
  intro left state j hstate hj _
  exact follows_pure hstate.expr.symm hj

end

theorem tracks_exprIn {expr : Reader Expr} {expr' : Parser Expr} (hexpr : Tracks s expr expr')
    {operand : Reader Operand} {operand' : Parser Operand}
    (hoperand : Tracks s operand operand') :
    Tracks s (exprIn expr operand) (Parser.exprIn expr' operand') := by
  intro i hi
  unfold exprIn
  rcases hi.cases with hend | ⟨t, ht⟩
  · refine follows_any_of_ended hend ?_
    rw [hend.check_else, hend.checkAny_else, hend.check_else,
      bind_of_error (operandIn_of_ended hend)]
  refine follows_any ht ?_
  split
  case h_1 hk =>
    refine Follows.of_apply_eq ?_ (ht.check_then hk _ _)
    exact follows_advance ht (follows_pure rfl ht.inside_succ)
  case h_2 hk =>
    refine Follows.of_apply_eq (j := i) ?_
      ((ht.check_else (by simp [hk]) _ _).trans (ht.checkAny_then (by simp [hk]) _ _))
    refine follows_advance ht ?_
    rw [if_pos hk]
    exact follows_pure rfl ht.inside_succ
  case h_3 hk =>
    refine Follows.of_apply_eq (j := i) (follows_array hexpr ht hk) ?_
    rw [ht.check_else (by simp [hk]), ht.checkAny_then (by simp [hk])]
  case h_4 hk =>
    refine Follows.of_apply_eq (j := i) (follows_object hexpr ht) ?_
    rw [ht.check_else (by simp [hk]), ht.checkAny_else (by simp [hk]), ht.check_then hk]
  case h_5 htemplate hempty hbracket hbrace =>
    have hread : Follows (· = ·) (operandIn expr operand >>= chain (operandIn expr operand))
        (Parser.operandFrom expr' operand' t >>=
          Parser.chainFrom (Parser.operandIn expr' operand')) s i (s.rest (i + 1)) := by
      refine (follows_operandIn hexpr hoperand ht).bind_eq fun first j hj _ => ?_
      exact tracks_chain (tracks_operandIn hexpr hoperand) first j hj
    have harray : t.kind ∉ [.leftBracket, .emptyBrackets] := by
      simpa using ⟨hbracket, hempty⟩
    refine hread.of_apply_eq ?_
    rw [ht.check_else htemplate, ht.checkAny_else harray, ht.check_else hbrace]

mutual

theorem tracks_expr (room : Nat) : Tracks s (expr room) (Parser.expr room) := by
  cases room with
  | zero => exact fun i hi => follows_complain .nestingTooDeep hi
  | succ room => exact tracks_exprIn (tracks_expr room) (tracks_operand room)

theorem tracks_operand (room : Nat) : Tracks s (operand room) (Parser.operand room) := by
  cases room with
  | zero => exact fun i hi => follows_complain .nestingTooDeep hi
  | succ room => exact tracks_operandIn (tracks_expr room) (tracks_operand room)

end

end Scriptwright.Cursor
