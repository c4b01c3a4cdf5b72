import Scriptwright.JavaScript
import Scriptwright.Parser.Program
import Scriptwright.Proofs.Parser.Run
import Scriptwright.Proofs.Token.Concatenation

/-!
# Parsing tokens with other spans

A parser takes its decisions from the kinds, the spellings and the values of tokens and
never from their spans. It joins spans, and it puts them into nodes and into failures.
If spans are changed in a way that agrees with joining, then the parser takes the same
steps, a failure names the changed span, and what was read has the same JavaScript text.
-/

namespace Scriptwright

/-- The failure at the same token when spans are changed. -/
def Failure.relabel (f : Span → Span) : Failure → Failure
  | .here fault rest => .here fault (rest.map (Token.relabel f))
  | .over fault span => .over fault (f span)

namespace Parser

/-- Two runs that end alike: with related values before corresponding tokens, or with
corresponding failures. -/
inductive Alike (f : Span → Span) {α : Type} (R : α → α → Prop) :
    Except Failure (α × List Token) → Except Failure (α × List Token) → Prop
  | ok {a b : α} (rest : List Token) (h : R a b) :
      Alike f R (.ok (a, rest)) (.ok (b, rest.map (Token.relabel f)))
  | error (e : Failure) : Alike f R (.error e) (.error (e.relabel f))

/-- The second parser does with changed tokens what the first does. -/
def Tracks (f : Span → Span) {α : Type} (R : α → α → Prop) (p q : Parser α) : Prop :=
  ∀ input, Alike f R (p.run input) (q.run (input.map (Token.relabel f)))

section
variable {f : Span → Span} {α β γ : Type} {R : α → α → Prop} {S : β → β → Prop}

theorem tracks_pure {a b : α} (h : R a b) : Tracks f R (pure a) (pure b) := fun input => .ok input h

theorem Tracks.bind {p q : Parser α} {g h : α → Parser β} (hp : Tracks f R p q)
    (hnext : ∀ a b, R a b → Tracks f S (g a) (h b)) : Tracks f S (p >>= g) (q >>= h) := by
  intro input
  have hrun := hp input
  rw [run_bind, run_bind]
  generalize p.run input = r at hrun ⊢
  generalize q.run (input.map (Token.relabel f)) = r' at hrun ⊢
  cases hrun with
  | error e => exact .error e
  | ok rest hab => exact hnext _ _ hab rest

theorem tracks_fail (fault : SyntaxFault) : Tracks f R (fail fault) (fail fault) :=
  fun input => .error (.here fault input)

theorem tracks_failOver (fault : SyntaxFault) (span : Span) :
    Tracks f R (failOver fault span) (failOver fault (f span)) :=
  fun _ => .error (.over fault span)

theorem tracks_refuse (t : Token) (what : Expectation) :
    Tracks f R (refuse t what) (refuse (t.relabel f) what) :=
  fun input => .error (.here (.expected what) (t :: input))

theorem tracks_any (what : Expectation) :
    Tracks f (fun t u => u = t.relabel f) (any what) (any what) := by
  intro input
  cases input with
  | nil => exact .error (.here (.expected what) [])
  | cons t rest => exact .ok rest rfl

theorem tracks_take (kind : Kind) (what : Expectation) :
    Tracks f (fun t u => u = t.relabel f) (take kind what) (take kind what) := by
  intro input
  cases input with
  | nil => exact .error (.here (.expected what) [])
  | cons t rest =>
    rw [List.map_cons, run_take_cons, run_take_cons]
    change Alike f _ _ (if t.kind = kind then _ else _)
    split_ifs
    · exact .ok rest rfl
    · exact .error (.here (.expected what) (t :: rest))

theorem tracks_nextIs (kind : Kind) : Tracks f (· = ·) (nextIs kind) (nextIs kind) := by
  intro input
  cases input with
  | nil => exact .ok [] rfl
  | cons t rest => exact .ok (t :: rest) rfl

theorem tracks_accept (kind : Kind) : Tracks f (· = ·) (accept kind) (accept kind) := by
  intro input
  cases input with
  | nil => exact .ok [] rfl
  | cons t rest =>
    rw [List.map_cons, run_accept_cons, run_accept_cons]
    change Alike f _ _ (if t.kind = kind then _ else _)
    split_ifs
    · exact .ok rest rfl
    · exact .ok (t :: rest) rfl

theorem tracks_any_bind {what : Expectation} {g h : Token → Parser β}
    (hnext : ∀ t, Tracks f S (g t) (h (t.relabel f))) :
    Tracks f S (any what >>= g) (any what >>= h) :=
  (tracks_any what).bind fun t _ ht => ht ▸ hnext t

theorem tracks_take_bind {kind : Kind} {what : Expectation} {g h : Token → Parser β}
    (hnext : ∀ t, Tracks f S (g t) (h (t.relabel f))) :
    Tracks f S (take kind what >>= g) (take kind what >>= h) :=
  (tracks_take kind what).bind fun t _ ht => ht ▸ hnext t

theorem tracks_nextIs_bind {kind : Kind} {g h : Bool → Parser β}
    (hnext : ∀ b, Tracks f S (g b) (h b)) : Tracks f S (nextIs kind >>= g) (nextIs kind >>= h) :=
  (tracks_nextIs kind).bind fun b _ hb => hb ▸ hnext b

theorem tracks_accept_bind {kind : Kind} {g h : Bool → Parser β}
    (hnext : ∀ b, Tracks f S (g b) (h b)) : Tracks f S (accept kind >>= g) (accept kind >>= h) :=
  (tracks_accept kind).bind fun b _ hb => hb ▸ hnext b

/-- A loop tracks another one if each selects the same tokens and their steps keep the
states related. -/
theorem tracks_extend {T : γ → γ → Prop} {select : Token → Option γ}
    (hselect : ∀ t, Option.Rel T (select t) (select (t.relabel f)))
    {step step' : β → γ → Parser β}
    (hstep : ∀ s s' c c', S s s' → T c c' → Tracks f S (step s c) (step' s' c')) {s s' : β}
    (hs : S s s') : Tracks f S (extend select step s) (extend select step' s') := by
  intro input
  -- On the number of tokens: a step takes none back, and the one that selects it is gone.
  induction hn : input.length using Nat.strong_induction_on generalizing input s s' with
  | _ n ih =>
    cases input with
    | nil =>
      have hnone : ∀ u ∈ ([] : List Token).head?, select u = none := nofun
      rw [List.map_nil, run_extend_of_none hnone, run_extend_of_none hnone]
      exact .ok [] hs
    | cons t rest =>
      have ht := hselect t
      generalize hc : select t = selected at ht
      generalize hc' : select (t.relabel f) = selected' at ht
      rw [List.map_cons]
      cases ht with
      | none =>
        have hnone : ∀ u ∈ (t :: rest).head?, select u = none := by
          rintro u ⟨⟩
          exact hc
        have hnone' : ∀ u ∈ (t.relabel f :: rest.map (Token.relabel f)).head?,
            select u = none := by
          rintro u ⟨⟩
          exact hc'
        rw [run_extend_of_none hnone, run_extend_of_none hnone']
        exact .ok (t :: rest) hs
      | some hcc' =>
        have hrun := hstep _ _ _ _ hs hcc' rest
        rw [run_extend_of_some hc, run_extend_of_some hc']
        generalize hr : (step s _).run rest = r at hrun ⊢
        generalize (step' s' _).run (rest.map (Token.relabel f)) = r' at hrun ⊢
        cases hrun with
        | error e => exact .error e
        | ok after hafter =>
          have hle := (run_suffix hr).length_le
          rw [List.length_cons] at hn
          exact ih after.length (by omega) hafter after rfl

/-- The same for loops that select tokens by their kinds alone. -/
theorem tracks_extend_kind (table : Kind → Option γ) {step step' : β → γ → Parser β}
    (hstep : ∀ s s' c, S s s' → Tracks f S (step s c) (step' s' c)) {s s' : β} (hs : S s s') :
    Tracks f S (extend (fun t => table t.kind) step s)
      (extend (fun t => table t.kind) step' s') := by
  have hselect : ∀ t : Token, Option.Rel (· = ·) (table t.kind) (table (t.relabel f).kind) := by
    intro t
    change Option.Rel (· = ·) (table t.kind) (table t.kind)
    cases table t.kind with
    | none => exact .none
    | some c => exact .some rfl
  exact tracks_extend hselect (fun s s' c _ hs hc => hc ▸ hstep s s' c hs) hs

theorem tracks_commaList {item item' : Parser α} (hitem : Tracks f R item item') (close : Kind) :
    Tracks f (List.Forall₂ R) (commaList close item) (commaList close item') := by
  unfold commaList
  refine tracks_nextIs_bind fun b => ?_
  split_ifs
  · exact tracks_pure .nil
  · refine hitem.bind fun first first' hfirst => ?_
    have hmore : ∀ items items' (_ : Unit), List.Forall₂ R items items' →
        Tracks f (List.Forall₂ R) (do return (← item) :: items) (do return (← item') :: items') :=
      fun items items' _ hitems => hitem.bind fun a b hab => tracks_pure (.cons hab hitems)
    refine (tracks_extend_kind (fun k => if k = .comma then some () else none) hmore
      (.cons hfirst .nil)).bind fun items items' hitems => ?_
    exact tracks_pure (List.rel_reverse hitems)

end

end Parser

/-- The same JavaScript text, with the changed span. -/
structure Expr.Tracked (f : Span → Span) (e e' : Expr) : Prop where
  text : e'.javaScript = e.javaScript
  operation : e'.isOperation = e.isOperation
  span : e'.span = f e.span

structure Operand.Tracked (f : Span → Span) (o o' : Operand) : Prop where
  expr : o.expr.Tracked f o'.expr
  parenthesized : o'.parenthesized = o.parenthesized

/-- Fields of the same names with tracked values. -/
def Expr.TrackedField (f : Span → Span) (field field' : String × Expr) : Prop :=
  field'.1 = field.1 ∧ field.2.Tracked f field'.2

section
variable {f : Span → Span}

theorem Expr.javaScript_withSpan (e : Expr) (span : Span) :
    (e.withSpan span).javaScript = e.javaScript := by
  cases e with
  | member base property computed span => cases computed <;> rfl
  | _ => rfl

theorem Expr.isOperation_withSpan (e : Expr) (span : Span) :
    (e.withSpan span).isOperation = e.isOperation := by
  cases e <;> rfl

theorem Expr.Tracked.withSpan {e e' : Expr} (h : e.Tracked f e') (span : Span) :
    (e.withSpan span).Tracked f (e'.withSpan (f span)) where
  text := by rw [Expr.javaScript_withSpan, Expr.javaScript_withSpan, h.text]
  operation := by rw [Expr.isOperation_withSpan, Expr.isOperation_withSpan, h.operation]
  span := by rw [Expr.span_withSpan, Expr.span_withSpan]

theorem Expr.Tracked.binary {left left' right right' : Expr} (hleft : left.Tracked f left')
    (hright : right.Tracked f right') (op : BinaryOp) (span : Span) :
    (Expr.binary left op right span).Tracked f (.binary left' op right' (f span)) where
  text := by
    simp only [Expr.javaScript, hleft.text, hleft.operation, hright.text, hright.operation]
  operation := rfl
  span := rfl

theorem Expr.Tracked.unary {e e' : Expr} (h : e.Tracked f e') (op : UnaryOp) (span : Span) :
    (Expr.unary op e span).Tracked f (.unary op e' (f span)) where
  text := by simp only [Expr.javaScript, h.text, h.operation]
  operation := rfl
  span := rfl

theorem Expr.listJavaScript_of_tracked {es es' : List Expr}
    (h : List.Forall₂ (Expr.Tracked f) es es') :
    Expr.listJavaScript es' = Expr.listJavaScript es := by
  induction h with
  | nil => rfl
  | cons he _ ih => simp only [Expr.listJavaScript, he.text, ih]

theorem Expr.fieldsJavaScript_of_tracked {fields fields' : List (String × Expr)}
    (h : List.Forall₂ (Expr.TrackedField f) fields fields') :
    Expr.fieldsJavaScript fields' = Expr.fieldsJavaScript fields := by
  induction h with
  | nil => rfl
  | cons hfield _ ih => simp only [Expr.fieldsJavaScript, hfield.1, hfield.2.text, ih]

theorem Expr.Tracked.call {callee callee' : Expr} (hcallee : callee.Tracked f callee')
    {arguments arguments' : List Expr}
    (harguments : List.Forall₂ (Expr.Tracked f) arguments arguments') (span : Span) :
    (Expr.call callee arguments span).Tracked f (.call callee' arguments' (f span)) where
  text := by
    simp only [Expr.javaScript, hcallee.text, hcallee.operation,
      Expr.listJavaScript_of_tracked harguments]
  operation := rfl
  span := rfl

theorem Expr.Tracked.member {base base' property property' : Expr} (hbase : base.Tracked f base')
    (hproperty : property.Tracked f property') (computed : Bool) (span : Span) :
    (Expr.member base property computed span).Tracked f
      (.member base' property' computed (f span)) where
  text := by
    cases computed <;>
      simp only [Expr.javaScript, hbase.text, hbase.operation, hproperty.text]
  operation := rfl
  span := rfl

theorem Expr.Tracked.array {elements elements' : List Expr}
    (h : List.Forall₂ (Expr.Tracked f) elements elements') (span : Span) :
    (Expr.array elements span).Tracked f (.array elements' (f span)) where
  text := by simp only [Expr.javaScript, Expr.listJavaScript_of_tracked h]
  operation := rfl
  span := rfl

/-- Writing tracked fields one after the other gives tracked records. -/
theorem Record.tracked_insert {fields fields' : Record Expr}
    (h : List.Forall₂ (Expr.TrackedField f) fields fields') {field field' : String × Expr}
    (hfield : Expr.TrackedField f field field') :
    List.Forall₂ (Expr.TrackedField f) (insert field.1 field.2 fields)
      (insert field'.1 field'.2 fields') := by
  induction h with
  | nil => exact .cons hfield .nil
  | @cons head head' rest rest' hhead hrest ih =>
    by_cases hname : head.1 = field.1
    · have hname' : head'.1 = field'.1 := by rw [hhead.1, hfield.1, hname]
      simp only [insert, if_pos hname, if_pos hname']
      exact .cons ⟨hhead.1, hfield.2⟩ hrest
    · have hname' : ¬ head'.1 = field'.1 := by rwa [hhead.1, hfield.1]
      simp only [insert, if_neg hname, if_neg hname']
      exact .cons hhead ih

theorem Record.tracked_foldl {written written' : List (String × Expr)}
    (h : List.Forall₂ (Expr.TrackedField f) written written') {fields fields' : Record Expr}
    (hfields : List.Forall₂ (Expr.TrackedField f) fields fields') :
    List.Forall₂ (Expr.TrackedField f)
      (written.foldl (fun fields field => insert field.1 field.2 fields) fields)
      (written'.foldl (fun fields field => insert field.1 field.2 fields) fields') := by
  induction h generalizing fields fields' with
  | nil => exact hfields
  | cons hfield _ ih => exact ih (tracked_insert hfields hfield)

theorem Expr.Tracked.object {fields fields' : List (String × Expr)}
    (h : List.Forall₂ (Expr.TrackedField f) fields fields') (span : Span) :
    (Expr.object (Record.ofList fields) span).Tracked f
      (.object (Record.ofList fields') (f span)) where
  text := by
    have hfields := Expr.fieldsJavaScript_of_tracked (Record.tracked_foldl h .nil)
    simp only [Expr.javaScript, Record.ofList, hfields]
  operation := rfl
  span := rfl

theorem Expr.partsJavaScript_relabel (segments : List Segment) :
    Expr.partsJavaScript ((segments.map (Segment.relabel f)).map Segment.part) =
      Expr.partsJavaScript (segments.map Segment.part) := by
  induction segments with
  | nil => rfl
  | cons segment segments ih =>
    cases segment with
    | text content =>
      simp only [List.map_cons, Segment.relabel, Segment.part, Expr.partsJavaScript, ih]
    | name name span =>
      simp only [List.map_cons, Segment.relabel, Segment.part, Expr.partsJavaScript, ih,
        Expr.javaScript]

theorem Expr.Tracked.identifier (name : String) (span : Span) :
    (Expr.identifier name span).Tracked f (.identifier name (f span)) := ⟨rfl, rfl, rfl⟩

theorem Expr.Tracked.template (t : Token) :
    (Expr.template (t.segments.map Segment.part) t.span).Tracked f
      (.template ((t.relabel f).segments.map Segment.part) (f t.span)) where
  text := by
    have hsegments : (t.relabel f).segments = t.segments.map (Segment.relabel f) := by
      unfold Token.segments Token.relabel
      cases t.value <;> rfl
    rw [Expr.javaScript, Expr.javaScript, hsegments, Expr.partsJavaScript_relabel]
  operation := rfl
  span := rfl

end

namespace Parser

theorem tracks_term {f : Span → Span} (what : Expectation) (t : Token) :
    Tracks f (Expr.Tracked f) (term what t) (term what (t.relabel f)) := by
  obtain ⟨kind, lexeme, value, span⟩ := t
  cases kind with
  | identifier => exact tracks_pure ⟨rfl, rfl, rfl⟩
  | number =>
    cases value with
    | number value => exact tracks_pure ⟨rfl, rfl, rfl⟩
    | _ => exact tracks_refuse _ .literal
  | text =>
    cases value with
    | text content => exact tracks_pure ⟨rfl, rfl, rfl⟩
    | _ => exact tracks_refuse _ .literal
  | keyword word =>
    cases word with
    | trueWord | falseWord | nilWord => exact tracks_pure ⟨rfl, rfl, rfl⟩
    | _ => exact tracks_refuse _ what
  | _ => exact tracks_refuse _ what

section
variable {f : Span → Span} (hf : ∀ a b : Span, f (a.cover b) = (f a).cover (f b))
variable {expr : Parser Expr} (hexpr : Tracks f (Expr.Tracked f) expr expr)
  {operand : Parser Operand} (hoperand : Tracks f (Operand.Tracked f) operand operand)

include hexpr in
theorem tracks_field : Tracks f (Expr.TrackedField f) (field expr) (field expr) := by
  unfold field
  refine tracks_take_bind fun name => ?_
  refine tracks_accept_bind fun colon => ?_
  split_ifs
  · refine hexpr.bind fun e e' he => ?_
    exact tracks_pure ⟨rfl, he⟩
  · exact tracks_pure ⟨rfl, .identifier name.lexeme name.span⟩

include hf hexpr

theorem tracks_objectFrom (opening : Token) :
    Tracks f (Expr.Tracked f) (objectFrom expr opening) (objectFrom expr (opening.relabel f)) := by
  unfold objectFrom
  refine (tracks_commaList (tracks_field hexpr) .rightBrace).bind fun fields fields' hfields => ?_
  refine tracks_take_bind fun closing => ?_
  have hspan := hf opening.span closing.span
  have hobject := Expr.Tracked.object hfields (opening.span.cover closing.span)
  rw [hspan] at hobject
  exact tracks_pure hobject

theorem tracks_arrayFrom (opening : Token) :
    Tracks f (Expr.Tracked f) (arrayFrom expr opening) (arrayFrom expr (opening.relabel f)) := by
  unfold arrayFrom
  refine (tracks_commaList hexpr .rightBracket).bind fun elements elements' helements => ?_
  refine tracks_take_bind fun closing => ?_
  have harray := Expr.Tracked.array helements (opening.span.cover closing.span)
  rw [hf] at harray
  exact tracks_pure harray

include hoperand in
theorem tracks_primaryFrom (t : Token) :
    Tracks f (Operand.Tracked f) (primaryFrom expr operand t)
      (primaryFrom expr operand (t.relabel f)) := by
  obtain ⟨kind, lexeme, value, span⟩ := t
  dsimp only [primaryFrom, Token.relabel]
  cases UnaryOp.ofKind? kind with
  | some op =>
    refine hoperand.bind fun argument argument' hargument => ?_
    have hunary := hargument.expr.unary op (span.cover argument.expr.span)
    rw [hf, ← hargument.expr.span] at hunary
    exact tracks_pure ⟨hunary, rfl⟩
  | none =>
    cases kind with
    | leftParen =>
      refine hexpr.bind fun inner inner' hinner => ?_
      refine tracks_take_bind fun closing => ?_
      have hgroup := hinner.withSpan (span.cover closing.span)
      rw [hf] at hgroup
      exact tracks_pure ⟨hgroup, rfl⟩
    | leftBrace =>
      exact (tracks_objectFrom hf hexpr _).bind fun e e' he => tracks_pure ⟨he, rfl⟩
    | _ => exact (tracks_term .expression _).bind fun e e' he => tracks_pure ⟨he, rfl⟩

theorem tracks_applyTrailer {base base' : Operand} (hbase : base.Tracked f base')
    (trailer : Trailer) :
    Tracks f (Operand.Tracked f) (applyTrailer expr base trailer)
      (applyTrailer expr base' trailer) := by
  have hspan (t : Token) : f (base.expr.span.cover t.span) =
      base'.expr.span.cover (t.relabel f).span := by
    rw [hf, hbase.expr.span]
    rfl
  cases trailer with
  | call =>
    refine (tracks_commaList hexpr .rightParen).bind fun arguments arguments' harguments => ?_
    refine tracks_take_bind fun closing => ?_
    have hcall := hbase.expr.call harguments (base.expr.span.cover closing.span)
    rw [hspan] at hcall
    exact tracks_pure ⟨hcall, rfl⟩
  | index =>
    refine hexpr.bind fun index index' hindex => ?_
    refine tracks_take_bind fun closing => ?_
    have hmember := hbase.expr.member hindex true (base.expr.span.cover closing.span)
    rw [hspan] at hmember
    exact tracks_pure ⟨hmember, rfl⟩
  | member =>
    refine tracks_take_bind fun name => ?_
    have hmember := hbase.expr.member (.identifier name.lexeme name.span) false
      (base.expr.span.cover name.span)
    rw [hspan] at hmember
    exact tracks_pure ⟨hmember, rfl⟩

include hoperand

theorem tracks_operandFrom (t : Token) :
    Tracks f (Operand.Tracked f) (operandFrom expr operand t)
      (operandFrom expr operand (t.relabel f)) := by
  refine (tracks_primaryFrom hf hexpr hoperand t).bind fun first first' hfirst => ?_
  exact tracks_extend_kind Trailer.ofKind?
    (fun _ _ trailer hbase => tracks_applyTrailer hf hexpr hbase trailer) hfirst

theorem tracks_operandIn :
    Tracks f (Operand.Tracked f) (operandIn expr operand) (operandIn expr operand) := by
  refine tracks_any_bind fun t => ?_
  exact tracks_operandFrom hf hexpr hoperand t

omit hexpr

/-- A chain so far and the changed one: the same flag, and expressions that are tracked. -/
def TrackedChain (f : Span → Span) (left left' : Expr × Bool) : Prop :=
  left.1.Tracked f left'.1 ∧ left'.2 = left.2

theorem tracks_joinOperand {left left' : Expr × Bool} (hleft : TrackedChain f left left')
    (op : BinaryOp) :
    Tracks f (TrackedChain f) (joinOperand operand left op) (joinOperand operand left' op) := by
  refine hoperand.bind fun right right' hright => ?_
  have hspan : left'.1.span.cover right'.expr.span = f (left.1.span.cover right.expr.span) := by
    rw [hf, hleft.1.span, hright.expr.span]
  simp only [hspan, hleft.2, hright.parenthesized]
  split_ifs
  · exact tracks_failOver .ambiguousChain _
  · exact tracks_pure ⟨hleft.1.binary hright.expr op _, rfl⟩

theorem tracks_chainFrom {first first' : Operand} (hfirst : first.Tracked f first') :
    Tracks f (Expr.Tracked f) (chainFrom operand first) (chainFrom operand first') := by
  have hstart : TrackedChain f (first.expr, false) (first'.expr, false) := ⟨hfirst.expr, rfl⟩
  refine (tracks_extend_kind BinaryOp.ofKind?
    (fun _ _ op hleft => tracks_joinOperand hf hoperand hleft op) hstart).bind
      fun chain chain' hchain => ?_
  exact tracks_pure hchain.1

include hexpr

theorem tracks_exprIn :
    Tracks f (Expr.Tracked f) (exprIn expr operand) (exprIn expr operand) := by
  refine tracks_any_bind fun t => ?_
  have hchain : Tracks f (Expr.Tracked f)
      (do chainFrom (operandIn expr operand) (← operandFrom expr operand t))
      (do chainFrom (operandIn expr operand) (← operandFrom expr operand (t.relabel f))) :=
    (tracks_operandFrom hf hexpr hoperand t).bind fun _ _ hfirst =>
      tracks_chainFrom hf (tracks_operandIn hf hexpr hoperand) hfirst
  obtain ⟨kind, lexeme, value, span⟩ := t
  cases kind with
  | template => exact tracks_pure (.template _)
  | emptyBrackets => exact tracks_pure (.array .nil span)
  | leftBracket => exact tracks_arrayFrom hf hexpr _
  | leftBrace => exact tracks_objectFrom hf hexpr _
  | _ => exact hchain

end

section
variable {f : Span → Span} (hf : ∀ a b : Span, f (a.cover b) = (f a).cover (f b))
include hf

theorem tracks_expr_operand (room : Nat) :
    Tracks f (Expr.Tracked f) (expr room) (expr room) ∧
      Tracks f (Operand.Tracked f) (operand room) (operand room) := by
  induction room with
  | zero => exact ⟨tracks_fail .nestingTooDeep, tracks_fail .nestingTooDeep⟩
  | succ room ih => exact ⟨tracks_exprIn hf ih.1 ih.2, tracks_operandIn hf ih.1 ih.2⟩

theorem tracks_expr (room : Nat) : Tracks f (Expr.Tracked f) (expr room) (expr room) :=
  (tracks_expr_operand hf room).1

end

end Parser

end Scriptwright
