import Scriptwright.Parser.Program
import Scriptwright.Proofs.Parser.Run

/-!
# How far a parser looks

A parser stops in front of some token, whether it has read something or has failed
there. It has looked at that token and at those before it, and at none behind it: before
other tokens that begin with the same one it stops in the same way. What it reports over
tokens that it has read is one of three faults.
-/

namespace Scriptwright

/-- The fault lies in tokens that make sense one by one and not together. -/
def SyntaxFault.isOver : SyntaxFault → Bool
  | .ambiguousChain | .signatureWithoutFunction | .signatureNameMismatch => true
  | .expected _ | .nestingTooDeep => false

namespace Parser
variable {α β γ : Type}

/-- The tokens that a run has left, if it ends in front of them. -/
def rest? : Except Failure (α × List Token) → Option (List Token)
  | .ok (_, rest) => some rest
  | .error (.here _ rest) => some rest
  | .error (.over _ _) => none

/-- The end of a run in front of other tokens. -/
def withRest (rest : List Token) :
    Except Failure (α × List Token) → Except Failure (α × List Token)
  | .ok (a, _) => .ok (a, rest)
  | .error (.here fault _) => .error (.here fault rest)
  | .error (.over fault span) => .error (.over fault span)

/-- What the parser does with the input is settled by the tokens up to the one in front of
which it stops. It may go back to the tokens `taken`, which stand before the input. -/
structure SettledAt (taken : List Token) (p : Parser α) (input : List Token) : Prop where
  stops {rest : List Token} (h : rest? (p.run input) = some rest) :
    ∃ read, taken ++ input = read ++ rest ∧
      ∀ input' rest', taken ++ input' = read ++ rest' → rest'.head? = rest.head? →
        p.run input' = withRest rest' (p.run input)
  isOver {fault : SyntaxFault} {span : Span} (h : p.run input = .error (.over fault span)) :
    fault.isOver

def Settled (taken : List Token) (p : Parser α) : Prop := ∀ input, SettledAt taken p input

section
variable {taken : List Token} {p : Parser α} {input : List Token}

/-- A parser that takes nothing and looks at the next token only. -/
theorem settledAt_of_head {r : List Token → Except Failure (α × List Token)}
    (hrest : ∀ rest, rest? (r rest) = some rest)
    (hwith : ∀ rest rest', r rest' = withRest rest' (r rest))
    (hrun : ∀ input', input'.head? = input.head? → p.run input' = r input') :
    SettledAt taken p input where
  stops {rest} h := by
    rw [hrun input rfl, hrest] at h
    cases h
    refine ⟨taken, rfl, ?_⟩
    intro input' rest' heq hhead
    cases List.append_cancel_left heq
    rw [hrun input' hhead, hrun input rfl, ← hwith]
  isOver {fault span} h := by
    have hnone := hrest input
    rw [← hrun input rfl, h] at hnone
    cases hnone

theorem settledAt_ok {a : α}
    (h : ∀ input', input'.head? = input.head? → p.run input' = .ok (a, input')) :
    SettledAt taken p input :=
  settledAt_of_head (r := fun rest => .ok (a, rest)) (fun _ => rfl) (fun _ _ => rfl) h

theorem settledAt_here (fault : SyntaxFault)
    (h : ∀ input', input'.head? = input.head? → p.run input' = .error (.here fault input')) :
    SettledAt taken p input :=
  settledAt_of_head (r := fun rest => .error (.here fault rest)) (fun _ => rfl) (fun _ _ => rfl) h

/-- A parser that takes the next token goes on as another one, which may go back to it. -/
theorem SettledAt.cons {t : Token} {q : Parser α}
    (hrun : ∀ rest, p.run (t :: rest) = q.run rest) (h : SettledAt [t] q input) :
    SettledAt taken p (t :: input) where
  stops {rest} hrest := by
    rw [hrun] at hrest
    obtain ⟨read, heq, hsame⟩ := h.stops hrest
    rw [List.singleton_append] at heq
    refine ⟨taken ++ read, by rw [heq, List.append_assoc], ?_⟩
    intro input' rest' heq' hhead
    rw [List.append_assoc] at heq'
    have hinput' := List.append_cancel_left heq'
    -- The other input begins with the same token, read before or next in line.
    have hnext : input'.head? = some t := by
      rw [hinput', List.head?_append, hhead, ← List.head?_append, ← heq]
      rfl
    obtain ⟨tail, rfl⟩ := List.head?_eq_some_iff.mp hnext
    rw [hrun, hrun]
    exact hsame tail rest' hinput' hhead
  isOver {fault span} hover := by
    rw [hrun] at hover
    exact h.isOver hover

theorem SettledAt.bind_of_error {f : α → Parser β} {e : Failure} (hp : SettledAt taken p input)
    (hrun : p.run input = .error e) : SettledAt taken (p >>= f) input := by
  have hbind : (p >>= f).run input = .error e := by rw [run_bind, hrun]
  constructor
  · intro rest hrest
    rw [hbind] at hrest ⊢
    cases e with
    | here fault rest₁ =>
      cases hrest
      obtain ⟨read, heq, hsame⟩ := hp.stops (by rw [hrun]; rfl)
      refine ⟨read, heq, ?_⟩
      intro input' rest' heq' hhead
      rw [run_bind, hsame input' rest' heq' hhead, hrun]
      rfl
    | _ => cases hrest
  · intro fault span hover
    rw [hbind] at hover
    cases hover
    exact hp.isOver hrun

theorem SettledAt.bind_of_ok {f : α → Parser β} {a : α} {middle : List Token}
    (hp : SettledAt taken p input) (hrun : p.run input = .ok (a, middle))
    (hf : SettledAt [] (f a) middle) : SettledAt taken (p >>= f) input := by
  have hbind : (p >>= f).run input = (f a).run middle := run_bind_of_ok hrun
  constructor
  · intro rest hrest
    rw [hbind] at hrest ⊢
    obtain ⟨read₁, heq₁, hsame₁⟩ := hp.stops (by rw [hrun]; rfl)
    obtain ⟨read₂, heq₂, hsame₂⟩ := hf.stops hrest
    rw [List.nil_append] at heq₂
    refine ⟨read₁ ++ read₂, by rw [heq₁, heq₂, List.append_assoc], ?_⟩
    intro input' rest' heq' hhead
    rw [List.append_assoc] at heq'
    -- The first part stops before tokens that begin alike, the second goes on there.
    have hnext : (read₂ ++ rest').head? = middle.head? := by
      rw [heq₂, List.head?_append, List.head?_append, hhead]
    have hfirst : p.run input' = .ok (a, read₂ ++ rest') := by
      rw [hsame₁ input' (read₂ ++ rest') heq' hnext, hrun]
      rfl
    rw [run_bind_of_ok hfirst]
    exact hsame₂ (read₂ ++ rest') rest' rfl hhead
  · intro fault span hover
    rw [hbind] at hover
    exact hf.isOver hover

theorem SettledAt.bind {f : α → Parser β} (hp : SettledAt taken p input)
    (hf : ∀ a rest, p.run input = .ok (a, rest) → SettledAt [] (f a) rest) :
    SettledAt taken (p >>= f) input := by
  cases hrun : p.run input with
  | error e => exact hp.bind_of_error hrun
  | ok r => exact hp.bind_of_ok hrun (hf r.1 r.2 hrun)

/-- A parser that goes back to no token may as well go back to some. -/
theorem SettledAt.weaken (h : SettledAt [] p input) : SettledAt taken p input where
  stops {rest} hrest := by
    obtain ⟨read, heq, hsame⟩ := h.stops hrest
    rw [List.nil_append] at heq
    refine ⟨taken ++ read, by rw [heq, List.append_assoc], ?_⟩
    intro input' rest' heq' hhead
    rw [List.append_assoc] at heq'
    exact hsame input' rest' (List.append_cancel_left heq') hhead
  isOver hover := h.isOver hover

theorem Settled.weaken (h : Settled [] p) : Settled taken p := fun input => (h input).weaken

theorem Settled.bind {f : α → Parser β} (hp : Settled taken p) (hf : ∀ a, Settled [] (f a)) :
    Settled taken (p >>= f) :=
  fun input => (hp input).bind fun a rest _ => hf a rest

theorem settled_pure (a : α) : Settled taken (pure a) := fun _ => settledAt_ok fun _ _ => rfl

theorem settled_fail (fault : SyntaxFault) : Settled taken (fail fault : Parser α) :=
  fun _ => settledAt_here fault fun _ _ => rfl

theorem settled_failOver {fault : SyntaxFault} (h : fault.isOver) (span : Span) :
    Settled taken (failOver fault span : Parser α) := by
  intro input
  constructor
  · intro rest hrest
    cases hrest
  · intro fault' span' hover
    cases hover
    exact h

theorem settled_refuse (t : Token) (what : Expectation) :
    Settled [t] (refuse t what : Parser α) := by
  intro input
  constructor
  · intro rest hrest
    cases hrest
    refine ⟨[], rfl, ?_⟩
    intro input' rest' heq' _
    rw [List.nil_append] at heq'
    rw [← heq']
    rfl
  · intro fault span hover
    cases hover

theorem settledAt_nil {fault : SyntaxFault} (h : p.run [] = .error (.here fault [])) :
    SettledAt taken p [] := by
  refine settledAt_here fault fun input' hhead => ?_
  cases List.head?_eq_none_iff.mp hhead
  exact h

theorem settled_any_bind {what : Expectation} {f : Token → Parser β}
    (hf : ∀ t, Settled [t] (f t)) : Settled taken (any what >>= f) := by
  intro input
  cases input with
  | nil => exact settledAt_nil (run_bind _ f [])
  | cons t rest => exact .cons (fun rest' => run_bind _ f (t :: rest')) (hf t rest)

theorem settled_take (kind : Kind) (what : Expectation) : Settled taken (take kind what) := by
  intro input
  cases input with
  | nil => exact settledAt_nil (run_take_nil kind what)
  | cons t rest =>
    by_cases hkind : t.kind = kind
    · exact .cons (q := pure t) (run_take_of_kind hkind what) (settled_pure t rest)
    · refine settledAt_here (.expected what) fun input' hhead => ?_
      obtain ⟨tail, rfl⟩ := List.head?_eq_some_iff.mp hhead
      rw [run_take_cons, if_neg hkind]

theorem settled_nextIs (kind : Kind) : Settled taken (nextIs kind) := by
  intro input
  refine settledAt_ok (a := input.head?.any (·.kind = kind)) fun input' hhead => ?_
  rw [run_nextIs, hhead]

theorem settled_accept (kind : Kind) : Settled taken (accept kind) := by
  intro input
  by_cases hkind : ∀ t ∈ input.head?, t.kind ≠ kind
  · refine settledAt_ok (a := false) fun input' hhead => ?_
    rw [← hhead] at hkind
    exact run_accept_of_ne hkind
  · cases input with
    | nil => exact absurd (by simp) hkind
    | cons t rest =>
      have ht : t.kind = kind := by simpa using hkind
      exact .cons (q := pure true) (run_accept_of_kind ht) (settled_pure true rest)

/-- A loop is settled if each of its steps is, which may go back to the token that was
selected for it. -/
theorem settled_extend {select : Token → Option γ} {step : β → γ → Parser β}
    (hstep : ∀ state t c, select t = some c → Settled [t] (step state c)) (state : β) :
    Settled taken (extend select step state) := by
  intro input
  -- On the number of tokens: a step takes none back, and the one that selects it is gone.
  induction hn : input.length using Nat.strongRecOn generalizing taken input state with
  | _ n ih =>
    by_cases hnone : ∀ t ∈ input.head?, select t = none
    · refine settledAt_ok (a := state) fun input' hhead => ?_
      rw [← hhead] at hnone
      exact run_extend_of_none hnone step state
    · cases input with
      | nil => exact absurd (by simp) hnone
      | cons t rest =>
        obtain ⟨c, hc⟩ := Option.ne_none_iff_exists'.mp (by simpa using hnone)
        have hrun : ∀ rest, run (extend select step state) (t :: rest) =
            (step state c >>= fun next => extend select step next).run rest := by
          intro rest
          exact (run_extend_of_some hc step state rest).trans (run_bind _ _ rest).symm
        refine .cons hrun ((hstep state t c hc rest).bind fun next after hafter => ?_)
        have hle := (run_suffix hafter).length_le
        rw [List.length_cons] at hn
        exact ih after.length (by omega) next after rfl

theorem settled_commaList {item : Parser α} (hitem : Settled [] item) (close : Kind) :
    Settled taken (commaList close item) := by
  unfold commaList
  refine (settled_nextIs close).bind fun found => ?_
  split_ifs
  · exact settled_pure []
  · refine hitem.bind fun first => ?_
    have hstep : ∀ (items : List α) t c, comma? t = some c →
        Settled [t] (do return (← item) :: items) :=
      fun items t c _ => hitem.weaken.bind fun next => settled_pure (next :: items)
    exact (settled_extend hstep [first]).bind fun items => settled_pure items.reverse

end

theorem settled_term (what : Expectation) (t : Token) : Settled [t] (term what t) := by
  unfold term
  split
  case h_7 | h_8 => exact settled_refuse t .literal
  case h_9 => exact settled_refuse t what
  all_goals exact settled_pure _

section
variable {expr : Parser Expr} (hexpr : Settled [] expr)
  {operand : Parser Operand} (hoperand : Settled [] operand)
include hexpr

theorem settled_field : Settled [] (field expr) := by
  refine (settled_take .identifier .propertyName).bind fun name => ?_
  refine (settled_accept .colon).bind fun colon => ?_
  split_ifs
  · exact hexpr.bind fun e => settled_pure _
  · exact settled_pure _

theorem settled_objectFrom (opening : Token) : Settled [] (objectFrom expr opening) := by
  refine (settled_commaList (settled_field hexpr) .rightBrace).bind fun fields => ?_
  exact (settled_take .rightBrace .objectClose).bind fun closing => settled_pure _

theorem settled_arrayFrom (opening : Token) : Settled [] (arrayFrom expr opening) := by
  refine (settled_commaList hexpr .rightBracket).bind fun elements => ?_
  exact (settled_take .rightBracket .elementsClose).bind fun closing => settled_pure _

theorem settled_applyTrailer (operand : Operand) (trailer : Trailer) :
    Settled [] (applyTrailer expr operand trailer) := by
  cases trailer with
  | call =>
    refine (settled_commaList hexpr .rightParen).bind fun arguments => ?_
    exact (settled_take .rightParen .argumentsClose).bind fun closing => settled_pure _
  | index =>
    refine hexpr.bind fun index => ?_
    exact (settled_take .rightBracket .indexClose).bind fun closing => settled_pure _
  | member => exact (settled_take .identifier .memberName).bind fun name => settled_pure _

include hoperand

theorem settled_primaryFrom (t : Token) : Settled [t] (primaryFrom expr operand t) := by
  unfold primaryFrom
  cases UnaryOp.ofKind? t.kind with
  | some op => exact hoperand.weaken.bind fun argument => settled_pure _
  | none =>
    dsimp only
    split
    · refine hexpr.weaken.bind fun inner => ?_
      exact (settled_take .rightParen .groupClose).bind fun closing => settled_pure _
    · exact (settled_objectFrom hexpr t).weaken.bind fun object => settled_pure _
    · exact (settled_term .expression t).bind fun leaf => settled_pure _

theorem settled_operandFrom (t : Token) : Settled [t] (operandFrom expr operand t) := by
  refine (settled_primaryFrom hexpr hoperand t).bind fun first => ?_
  exact settled_extend (fun operand _ trailer _ =>
    (settled_applyTrailer hexpr operand trailer).weaken) first

theorem settled_operandIn : Settled [] (operandIn expr operand) :=
  settled_any_bind fun t => settled_operandFrom hexpr hoperand t

omit hexpr in
theorem settled_chainFrom (first : Operand) : Settled [] (chainFrom operand first) := by
  have hjoin : ∀ (left : Expr × Bool) t op, BinaryOp.ofKind? t.kind = some op →
      Settled [t] (joinOperand operand left op) := by
    intro left t op _
    refine hoperand.weaken.bind fun right => ?_
    dsimp only
    split_ifs
    · exact settled_failOver rfl _
    · exact settled_pure _
  exact (settled_extend hjoin (first.expr, false)).bind fun chain => settled_pure chain.1

theorem settled_exprIn : Settled [] (exprIn expr operand) := by
  refine settled_any_bind fun t => ?_
  split
  · exact settled_pure _
  · exact settled_pure _
  · exact (settled_arrayFrom hexpr t).weaken
  · exact (settled_objectFrom hexpr t).weaken
  · refine (settled_operandFrom hexpr hoperand t).bind fun first => ?_
    exact settled_chainFrom (settled_operandIn hexpr hoperand) first

end

theorem settled_expr_operand (room : Nat) :
    Settled [] (expr room) ∧ Settled [] (operand room) := by
  induction room with
  | zero => exact ⟨settled_fail .nestingTooDeep, settled_fail .nestingTooDeep⟩
  | succ room ih => exact ⟨settled_exprIn ih.1 ih.2, settled_operandIn ih.1 ih.2⟩

section
variable {inner : Parser TypeExpr} (hinner : Settled [] inner)
include hinner

theorem settled_property : Settled [] (property inner) := by
  refine (settled_take .identifier .propertyName).bind fun name => ?_
  refine (settled_take .colon .propertyColon).bind fun _ => ?_
  exact hinner.bind fun type => settled_pure _

theorem settled_interfaceFrom (opening : Token) : Settled [] (interfaceFrom inner opening) := by
  refine (settled_commaList (settled_property hinner) .rightBrace).bind fun fields => ?_
  refine (settled_take .rightBrace .interfaceClose).bind fun closing => ?_
  refine (settled_accept .colon).bind fun colon => ?_
  split_ifs
  · exact hinner.bind fun result => settled_pure _
  · exact settled_pure _

theorem settled_typeExprIn : Settled [] (typeExprIn inner) := by
  refine settled_any_bind fun t => ?_
  split
  · exact hinner.weaken.bind fun element => settled_pure _
  · exact (settled_interfaceFrom hinner t).weaken
  · exact settled_pure _
  · exact settled_refuse t .typeExpr

omit hinner in
theorem settled_typeExpr (room : Nat) : Settled [] (typeExpr room) := by
  induction room with
  | zero => exact settled_fail .nestingTooDeep
  | succ room ih => exact settled_typeExprIn ih

end

theorem settled_parameter (signature : Option Signature) : Settled [] (parameter signature) :=
  (settled_take .identifier .parameterName).bind fun _ => settled_pure _

theorem settled_checkName (name : String) (signature : Option Signature) :
    Settled [] (checkName name signature) := by
  cases signature with
  | none => exact settled_pure ()
  | some s =>
    unfold checkName
    dsimp only
    split_ifs
    · exact settled_pure ()
    · exact settled_failOver rfl s.span

theorem settled_condition : Settled [] condition := by
  refine (settled_take .identifier .conditionName).bind fun name => ?_
  refine settled_any_bind fun t => ?_
  cases BinaryOp.ofKind? t.kind with
  | none => exact settled_refuse t .condition
  | some op =>
    dsimp only
    split_ifs
    · refine settled_any_bind fun right => ?_
      exact (settled_term .condition right).bind fun right => settled_pure _
    · exact settled_refuse t .condition

section
variable {typeExpr : Parser TypeExpr} (htype : Settled [] typeExpr)
  {expr : Parser Expr} (hexpr : Settled [] expr)
  {block : Token → Parser Block} (hblock : ∀ opening, Settled [] (block opening))

section
include hblock

/-- A brace of the given place and the block that begins with it. -/
theorem settled_take_block {what : Expectation} {f : Block → Parser β}
    (hf : ∀ body, Settled [] (f body)) :
    Settled [] (do f (← block (← take .leftBrace what))) :=
  (settled_take .leftBrace what).bind fun opening => (hblock opening).bind hf

theorem settled_functionFrom (signature : Option Signature) (start : Token) :
    Settled [] (functionFrom block signature start) := by
  refine (settled_take .identifier .functionName).bind fun name => ?_
  refine (settled_take .equal .functionEquals).bind fun _ => ?_
  refine (settled_checkName name.lexeme signature).bind fun _ => ?_
  refine (settled_take .leftBrace .parametersOpen).bind fun _ => ?_
  refine (settled_commaList (settled_parameter signature) .rightBrace).bind fun parameters => ?_
  refine (settled_take .rightBrace .parametersClose).bind fun _ => ?_
  exact settled_take_block hblock fun body => settled_pure _

theorem settled_branchFrom (start : Token) : Settled [] (branchFrom block start) := by
  refine settled_condition.bind fun condition => ?_
  refine settled_take_block hblock fun thenBlock => ?_
  refine (settled_accept (.keyword .elseWord)).bind fun otherwise => ?_
  split_ifs
  · exact settled_take_block hblock fun elseBlock => settled_pure _
  · exact settled_pure _

include htype

theorem settled_typeFrom (start : Token) : Settled [] (typeFrom typeExpr block start) := by
  refine (settled_take .identifier .typeName).bind fun name => ?_
  refine (settled_take .equal .typeEquals).bind fun _ => ?_
  refine htype.bind fun definition => ?_
  cases definition with
  | function parameters result span =>
    refine (settled_nextIs (.keyword .funcWord)).bind fun found => ?_
    split_ifs
    · exact settled_any_bind fun next => (settled_functionFrom hblock _ next).weaken
    · exact settled_failOver rfl _
  | _ => exact settled_pure _

theorem settled_declarationFrom (t : Token) : Settled [t] (declarationFrom typeExpr block t) := by
  unfold declarationFrom
  split
  · exact (settled_typeFrom htype hblock t).weaken
  · exact (settled_functionFrom hblock none t).weaken
  · exact settled_refuse t .declaration

end

include hexpr

theorem settled_assignmentFrom (name : Token) : Settled [] (assignmentFrom expr name) := by
  refine (settled_take .equal .assignedEquals).bind fun _ => ?_
  exact hexpr.bind fun right => settled_pure _

theorem settled_assignment : Settled [] (assignment expr) :=
  (settled_take .identifier .assignedName).bind (settled_assignmentFrom hexpr)

include hblock

theorem settled_whileFrom (start : Token) : Settled [] (whileFrom expr block start) := by
  refine hexpr.bind fun condition => ?_
  exact settled_take_block hblock fun body => settled_pure _

theorem settled_forFrom (start : Token) : Settled [] (forFrom expr block start) := by
  refine (settled_assignment hexpr).bind fun initializer => ?_
  refine (settled_take .semicolon .initializerEnd).bind fun _ => ?_
  refine hexpr.bind fun condition => ?_
  refine (settled_take .semicolon .conditionEnd).bind fun _ => ?_
  refine (settled_assignment hexpr).bind fun increment => ?_
  exact settled_take_block hblock fun body => settled_pure _

theorem settled_statementFrom (t : Token) : Settled [t] (statementFrom expr block t) := by
  unfold statementFrom
  split
  · exact (settled_branchFrom hblock t).weaken
  · exact (settled_whileFrom hexpr hblock t).weaken
  · exact (settled_forFrom hexpr hblock t).weaken
  · exact (settled_assignmentFrom hexpr t).weaken.bind fun assignment => settled_pure _
  · exact settled_refuse t .assignedName

include htype

theorem settled_itemFrom (t : Token) : Settled [t] (itemFrom typeExpr expr block t) := by
  unfold itemFrom
  split_ifs
  · exact (settled_declarationFrom htype hblock t).bind fun declaration => settled_pure _
  · exact (settled_statementFrom hexpr hblock t).bind fun statement => settled_pure _

theorem settled_blockIn (opening : Token) : Settled [] (blockIn typeExpr expr block opening) := by
  have hitem : ∀ (items : List Item) t c, itemStart? t = some c →
      Settled [t] (do return (← itemFrom typeExpr expr block c) :: items) := by
    intro items t c hc
    obtain ⟨-, hc⟩ := Option.ite_none_left_eq_some.mp hc
    cases hc
    exact (settled_itemFrom htype hexpr hblock t).bind fun item => settled_pure _
  refine (settled_extend hitem []).bind fun items => ?_
  refine settled_any_bind fun t => ?_
  split_ifs
  · refine hexpr.weaken.bind fun result => ?_
    exact (settled_take .rightBrace .blockClose).bind fun closing => settled_pure _
  · exact settled_pure _

end

theorem settled_block (room : Nat) (opening : Token) : Settled [] (block room opening) := by
  induction room generalizing opening with
  | zero => exact settled_fail .nestingTooDeep
  | succ room ih =>
    exact settled_blockIn (settled_typeExpr room) (settled_expr_operand room).1 ih opening

/-- Reading a program is settled by the tokens up to the one where it ends. -/
theorem settled_declarations (room : Nat) : Settled [] (declarations room) := by
  have hdeclaration : ∀ (before : List Declaration) (t c : Token), some t = some c →
      Settled [t] (do return (← declarationFrom (typeExpr room) (block room) c) :: before) := by
    intro before t c hc
    cases hc
    refine (settled_declarationFrom (settled_typeExpr room) (settled_block room) t).bind ?_
    exact fun declaration => settled_pure _
  exact (settled_extend hdeclaration []).bind fun ds => settled_pure ds.reverse

end Parser

end Scriptwright
