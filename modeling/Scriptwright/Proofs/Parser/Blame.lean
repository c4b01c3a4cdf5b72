import Scriptwright.Proofs.Grammar.Chain
import Scriptwright.Proofs.Parser.EndOfText

/-!
# The token at fault

A fault is found in front of a token, or over several tokens that have been read. The span
of the second kind holds two tokens at least, so it is never the span of a token. If an
error has the span of a token, then it was found there, and what comes behind that token
has no part in it.
-/

namespace Scriptwright

/-- Two tokens, one behind the other, lie in the span. -/
def Span.Spreads (source : List Token) (s : Span) : Prop :=
  ∃ t ∈ source, ∃ u ∈ source, t.span.stop ≤ u.span.start ∧
    s.start ≤ t.span.start ∧ u.span.stop ≤ s.stop

/-- The fault lies in one token or is spread over several. -/
def Failure.Located (source : List Token) : Failure → Prop
  | .here fault _ => fault.isOver = false
  | .over _ span => span.Spreads source

theorem Token.InOrder.eq_or_apart {file : Nat} {ts : List Token} (h : InOrder file ts)
    {t u : Token} (ht : t ∈ ts) (hu : u ∈ ts) : t = u ∨ t.span.Apart u.span := by
  by_cases heq : t = u
  · exact .inl heq
  · have : Std.Symm fun t u : Token => t.span.Apart u.span := ⟨fun _ _ h => h.symm⟩
    have hpairs : ts.Pairwise fun t u => t.span.Apart u.span := h.pairs.imp Or.inl
    exact .inr (hpairs.forall ht hu heq)

/-- No token is spread over several. -/
theorem Span.Spreads.ne_span {file : Nat} {source : List Token} {s : Span} (h : s.Spreads source)
    (hsource : Token.InOrder file source) {t : Token} (ht : t ∈ source) : s ≠ t.span := by
  rintro rfl
  obtain ⟨first, hfirst, last, hlast, hbehind, hstart, hstop⟩ := h
  have hnonempty := hsource.nonempty first hfirst
  have hlastNonempty := hsource.nonempty last hlast
  rcases hsource.eq_or_apart ht hfirst with rfl | hapart
  · omega
  · rcases hapart with hapart | hapart <;> omega

theorem Span.Spreads.nonempty {file : Nat} {source : List Token} {s : Span} (h : s.Spreads source)
    (hsource : Token.InOrder file source) : s.start < s.stop := by
  obtain ⟨first, hfirst, last, hlast, hbehind, hstart, hstop⟩ := h
  have hnonempty := hsource.nonempty first hfirst
  have hlastNonempty := hsource.nonempty last hlast
  omega

namespace Parser
variable {α β γ : Type} {source : List Token}

def LocatesAt (source : List Token) (p : Parser α) (input : List Token) : Prop :=
  ∀ failure, p.run input = .error failure → failure.Located source

/-- Wherever the parser starts in the source, its faults are located. -/
def Locates (source : List Token) (p : Parser α) : Prop :=
  ∀ input, input <:+ source → LocatesAt source p input

/-- So are those of a parser that goes on behind the token `t`. -/
def LocatesFrom (source : List Token) (p : Token → Parser α) : Prop :=
  ∀ t input, t :: input <:+ source → LocatesAt source (p t) input

theorem LocatesAt.bind {p : Parser α} {f : α → Parser β} {input : List Token}
    (hp : LocatesAt source p input)
    (hf : ∀ a rest, p.run input = .ok (a, rest) → LocatesAt source (f a) rest) :
    LocatesAt source (p >>= f) input := by
  intro failure hfailure
  rw [run_bind] at hfailure
  cases hrun : p.run input with
  | error e =>
    rw [hrun] at hfailure
    cases hfailure
    exact hp _ hrun
  | ok r =>
    rw [hrun] at hfailure
    exact hf r.1 r.2 hrun failure hfailure

theorem LocatesAt.bind_all {p : Parser α} {f : α → Parser β} {input : List Token}
    (hp : LocatesAt source p input) (hinput : input <:+ source) (hf : ∀ a, Locates source (f a)) :
    LocatesAt source (p >>= f) input :=
  hp.bind fun a rest hrun => hf a rest ((run_suffix hrun).trans hinput)

theorem Locates.bind {p : Parser α} {f : α → Parser β} (hp : Locates source p)
    (hf : ∀ a, Locates source (f a)) : Locates source (p >>= f) :=
  fun input hinput => (hp input hinput).bind_all hinput hf

theorem LocatesFrom.of_locates {p : Token → Parser α} (h : ∀ t, Locates source (p t)) :
    LocatesFrom source p :=
  fun t input hinput => h t input ((List.suffix_cons t input).trans hinput)

theorem locates_pure (a : α) : Locates source (pure a) := nofun

theorem locates_fail {fault : SyntaxFault} (h : fault.isOver = false) :
    Locates source (fail fault : Parser α) := by
  intro input _ failure hfailure
  cases hfailure
  exact h

theorem locates_refuse (t : Token) (what : Expectation) :
    Locates source (refuse t what : Parser α) := by
  intro input _ failure hfailure
  cases hfailure
  rfl

theorem locates_failOver (fault : SyntaxFault) {span : Span} (h : span.Spreads source) :
    Locates source (failOver fault span : Parser α) := by
  intro input _ failure hfailure
  cases hfailure
  exact h

theorem locates_any_bind {what : Expectation} {f : Token → Parser β}
    (hf : LocatesFrom source f) : Locates source (any what >>= f) := by
  intro input hinput failure hfailure
  rw [run_bind] at hfailure
  cases input with
  | nil =>
    cases hfailure
    rfl
  | cons t rest => exact hf t rest hinput failure hfailure

theorem locates_take (kind : Kind) (what : Expectation) : Locates source (take kind what) := by
  intro input _ failure hfailure
  cases input with
  | nil =>
    cases hfailure
    rfl
  | cons t rest =>
    rw [run_take_cons] at hfailure
    split_ifs at hfailure
    cases hfailure
    rfl

theorem locates_nextIs (kind : Kind) : Locates source (nextIs kind) := nofun

theorem locates_accept (kind : Kind) : Locates source (accept kind) := by
  intro input _ failure hfailure
  cases input with
  | nil => cases hfailure
  | cons t rest =>
    rw [run_accept_cons] at hfailure
    split_ifs at hfailure

/-- A loop locates its faults if each of its steps does, as long as what it has read so far
is as it should be in front of the rest. -/
theorem locatesAt_extend {select : Token → Option γ} {step : β → γ → Parser β}
    (Fits : β → List Token → Prop)
    (hstep : ∀ state t c rest, select t = some c → t :: rest <:+ source → Fits state (t :: rest) →
      LocatesAt source (step state c) rest ∧
        ∀ next after, (step state c).run rest = .ok (next, after) → Fits next after)
    (state : β) (input : List Token) (hinput : input <:+ source) (hfits : Fits state input) :
    LocatesAt source (extend select step state) input := by
  -- On the number of tokens: the one that selects a step is gone.
  induction hn : input.length using Nat.strongRecOn generalizing input state with
  | _ n ih =>
    intro failure hfailure
    by_cases hnone : ∀ t ∈ input.head?, select t = none
    · rw [run_extend_of_none hnone] at hfailure
      cases hfailure
    · cases input with
      | nil => exact absurd (by simp) hnone
      | cons t rest =>
        obtain ⟨c, hc⟩ := Option.ne_none_iff_exists'.mp (by simpa using hnone)
        obtain ⟨hlocates, hnext⟩ := hstep state t c rest hc hinput hfits
        rw [run_extend_of_some hc] at hfailure
        cases hrun : (step state c).run rest with
        | error e =>
          rw [hrun] at hfailure
          cases hfailure
          exact hlocates _ hrun
        | ok r =>
          rw [hrun] at hfailure
          have hsuffix := run_suffix hrun
          have hle := hsuffix.length_le
          rw [List.length_cons] at hn
          exact ih r.2.length (by omega) r.1 r.2
            (hsuffix.trans ((List.suffix_cons t rest).trans hinput)) (hnext r.1 r.2 hrun) rfl
            failure hfailure

theorem locates_extend {select : Token → Option γ} {step : β → γ → Parser β}
    (hstep : ∀ state t c rest, select t = some c → t :: rest <:+ source →
      LocatesAt source (step state c) rest) (state : β) :
    Locates source (extend select step state) := by
  intro input hinput
  refine locatesAt_extend (fun _ _ => True) ?_ state input hinput trivial
  intro state t c rest hc hrest _
  exact ⟨hstep state t c rest hc hrest, fun _ _ _ => trivial⟩

theorem locates_commaList {item : Parser α} (hitem : Locates source item) (close : Kind) :
    Locates source (commaList close item) := by
  unfold commaList
  refine (locates_nextIs close).bind fun found => ?_
  split_ifs
  · exact locates_pure []
  · refine hitem.bind fun first => ?_
    refine (locates_extend ?_ [first]).bind fun items => locates_pure items.reverse
    intro items t c rest _ hrest
    have hnext : Locates source (do return (← item) :: items) :=
      hitem.bind fun next => locates_pure (next :: items)
    exact hnext rest ((List.suffix_cons t rest).trans hrest)

theorem locates_term (what : Expectation) (t : Token) : Locates source (term what t) := by
  unfold term
  split
  case h_7 | h_8 => exact locates_refuse t .literal
  case h_9 => exact locates_refuse t what
  all_goals exact locates_pure _

section
variable {expr : Parser Expr} (hexpr : Locates source expr)
  {operand : Parser Operand} (hoperand : Locates source operand)
include hexpr

theorem locates_field : Locates source (field expr) := by
  refine (locates_take .identifier .propertyName).bind fun name => ?_
  refine (locates_accept .colon).bind fun colon => ?_
  split_ifs
  · exact hexpr.bind fun e => locates_pure _
  · exact locates_pure _

theorem locates_objectFrom (opening : Token) : Locates source (objectFrom expr opening) := by
  refine (locates_commaList (locates_field hexpr) .rightBrace).bind fun fields => ?_
  exact (locates_take .rightBrace .objectClose).bind fun closing => locates_pure _

theorem locates_arrayFrom (opening : Token) : Locates source (arrayFrom expr opening) := by
  refine (locates_commaList hexpr .rightBracket).bind fun elements => ?_
  exact (locates_take .rightBracket .elementsClose).bind fun closing => locates_pure _

theorem locates_applyTrailer (operand : Operand) (trailer : Trailer) :
    Locates source (applyTrailer expr operand trailer) := by
  cases trailer with
  | call =>
    refine (locates_commaList hexpr .rightParen).bind fun arguments => ?_
    exact (locates_take .rightParen .argumentsClose).bind fun closing => locates_pure _
  | index =>
    refine hexpr.bind fun index => ?_
    exact (locates_take .rightBracket .indexClose).bind fun closing => locates_pure _
  | member => exact (locates_take .identifier .memberName).bind fun name => locates_pure _

include hoperand

theorem locates_primaryFrom (t : Token) : Locates source (primaryFrom expr operand t) := by
  unfold primaryFrom
  cases UnaryOp.ofKind? t.kind with
  | some op => exact hoperand.bind fun argument => locates_pure _
  | none =>
    dsimp only
    split
    · refine hexpr.bind fun inner => ?_
      exact (locates_take .rightParen .groupClose).bind fun closing => locates_pure _
    · exact (locates_objectFrom hexpr t).bind fun object => locates_pure _
    · exact (locates_term .expression t).bind fun leaf => locates_pure _

theorem locates_operandFrom (t : Token) : Locates source (operandFrom expr operand t) := by
  refine (locates_primaryFrom hexpr hoperand t).bind fun first => ?_
  refine locates_extend ?_ first
  intro operand next trailer rest _ hrest
  exact locates_applyTrailer hexpr operand trailer rest ((List.suffix_cons next rest).trans hrest)

theorem locates_operandIn : Locates source (operandIn expr operand) :=
  locates_any_bind (.of_locates (locates_operandFrom hexpr hoperand))

end

section
-- Two kinds of fault lie in tokens that have been read. For these the tokens have to be in
-- order, so that what was read first lies before the rest.
variable {file : Nat} (hsource : Token.InOrder file source)
include hsource

/-- A span that starts before a token and stops behind a later one. -/
theorem spreads_cover {t : Token} {rest read : List Token} (ht : (t :: rest).Sublist source)
    (hread : read.Sublist rest) {a b : Span} (ha : a.start ≤ t.span.start)
    (hb : b.Over file read) : (a.cover b).Spreads source := by
  obtain ⟨u, hu, hstop⟩ := hb.last
  have hmem : u ∈ rest := hread.subset (List.mem_of_mem_getLast? hu)
  have horder := hsource.sublist ht
  refine ⟨t, ht.subset List.mem_cons_self, u, ht.subset (List.mem_cons_of_mem t hmem), ?_, ?_, ?_⟩
  · exact (List.pairwise_cons.mp horder.pairs).1 u hmem
  · exact (Nat.min_le_left _ _).trans ha
  · rw [← hstop]
    exact Nat.le_max_right _ _

section
variable {room : Nat}
open Grammar

/-- A chain whose first operand starts at a token before the rest. -/
theorem locatesAt_chainFrom (hoperand : Locates source (chainOperand room)) {first : Operand}
    {t : Token} {input : List Token} (ht : (t :: input).Sublist source)
    (hfirst : first.expr.span.start ≤ t.span.start) (hinput : input <:+ source) :
    LocatesAt source (chainFrom (chainOperand room) first) input := by
  have hreads := chainOperand_reads room
  refine LocatesAt.bind (locatesAt_extend (fun left rest => ∃ t : Token,
    (t :: rest).Sublist source ∧ left.1.span.start ≤ t.span.start) ?_ (first.expr, false) input
    hinput ⟨t, ht, hfirst⟩) fun chain rest _ => ?_
  · intro left sign op rest _ hrest hleft
    obtain ⟨t, ht, hstart⟩ := hleft
    have hsuffix := (List.suffix_cons sign rest).trans hrest
    constructor
    · refine (hoperand rest hsuffix).bind fun right after hright => ?_
      obtain ⟨d, rfl, rfl⟩ := hreads.sound hright
      have hread : d.tokens.Sublist (sign :: (d.tokens ++ after)) :=
        (List.sublist_append_left _ _).cons _
      have hover := d.over (operandPhrase_over room)
        (hsource.sublist (hread.trans hrest.sublist))
      have hspreads := spreads_cover hsource ht hread hstart hover
      dsimp only
      split_ifs
      · exact locates_failOver _ hspreads after ((List.suffix_append _ _).trans hsuffix)
      · exact locates_pure _ after ((List.suffix_append _ _).trans hsuffix)
    · intro next after hnext
      obtain ⟨d, rfl, rfl, -⟩ := joinOperand_sound hreads hnext
      refine ⟨t, List.Sublist.trans (List.Sublist.cons_cons t ?_) ht, ?_⟩
      · exact (List.sublist_append_right _ _).cons _
      · exact (Nat.min_le_left _ _).trans hstart
  · exact nofun

theorem locates_exprIn (hexpr : Locates source (Parser.expr room))
    (hoperand : Locates source (Parser.operand room)) :
    Locates source (exprIn (Parser.expr room) (Parser.operand room)) := by
  refine locates_any_bind ?_
  intro t input hinput
  have hsuffix := (List.suffix_cons t input).trans hinput
  dsimp only
  split
  · exact locates_pure _ input hsuffix
  · exact locates_pure _ input hsuffix
  · exact locates_arrayFrom hexpr t input hsuffix
  · exact locates_objectFrom hexpr t input hsuffix
  · refine (locates_operandFrom hexpr hoperand t input hsuffix).bind fun first rest hrun => ?_
    have hrest := run_suffix hrun
    refine locatesAt_chainFrom hsource (locates_operandIn hexpr hoperand)
      ((hrest.sublist.cons_cons t).trans hinput.sublist) (Nat.le_of_eq ?_) (hrest.trans hsuffix)
    have hread : (chainOperand room).run (t :: input) = .ok (first, rest) :=
      (run_any_bind t (operandFrom (Parser.expr room) (Parser.operand room)) input).trans hrun
    obtain ⟨d, htokens, rfl⟩ := (chainOperand_reads room).sound hread
    have hsub : d.tokens.Sublist source := by
      refine (List.sublist_append_left _ rest).trans ?_
      rw [← htokens]
      exact hinput.sublist
    obtain ⟨u, hu, hstart⟩ := (d.over (operandPhrase_over room) (hsource.sublist hsub)).first
    obtain ⟨tail, htail⟩ := List.head?_eq_some_iff.mp hu
    rw [htail] at htokens
    cases htokens
    exact hstart

end

theorem locates_expr_operand (room : Nat) :
    Locates source (expr room) ∧ Locates source (operand room) := by
  induction room with
  | zero => exact ⟨locates_fail rfl, locates_fail rfl⟩
  | succ room ih => exact ⟨locates_exprIn hsource ih.1 ih.2, locates_operandIn ih.1 ih.2⟩

end

section
variable {inner : Parser TypeExpr} (hinner : Locates source inner)
include hinner

theorem locates_property : Locates source (property inner) := by
  refine (locates_take .identifier .propertyName).bind fun name => ?_
  refine (locates_take .colon .propertyColon).bind fun _ => ?_
  exact hinner.bind fun type => locates_pure _

theorem locates_interfaceFrom (opening : Token) : Locates source (interfaceFrom inner opening) := by
  refine (locates_commaList (locates_property hinner) .rightBrace).bind fun fields => ?_
  refine (locates_take .rightBrace .interfaceClose).bind fun closing => ?_
  refine (locates_accept .colon).bind fun colon => ?_
  split_ifs
  · exact hinner.bind fun result => locates_pure _
  · exact locates_pure _

theorem locates_typeExprIn : Locates source (typeExprIn inner) := by
  refine locates_any_bind (.of_locates fun t => ?_)
  split
  · exact hinner.bind fun element => locates_pure _
  · exact locates_interfaceFrom hinner t
  · exact locates_pure _
  · exact locates_refuse t .typeExpr

omit hinner in
theorem locates_typeExpr (room : Nat) : Locates source (typeExpr room) := by
  induction room with
  | zero => exact locates_fail rfl
  | succ room ih => exact locates_typeExprIn ih

end

theorem locates_parameter (signature : Option Signature) : Locates source (parameter signature) :=
  (locates_take .identifier .parameterName).bind fun _ => locates_pure _

theorem locates_checkName (name : String) {signature : Option Signature}
    (hsignature : ∀ s ∈ signature, s.span.Spreads source) :
    Locates source (checkName name signature) := by
  cases signature with
  | none => exact locates_pure ()
  | some s =>
    unfold checkName
    dsimp only
    split_ifs
    · exact locates_pure ()
    · exact locates_failOver _ (hsignature s rfl)

theorem locates_condition : Locates source condition := by
  refine (locates_take .identifier .conditionName).bind fun name => ?_
  refine locates_any_bind (.of_locates fun t => ?_)
  cases BinaryOp.ofKind? t.kind with
  | none => exact locates_refuse t .condition
  | some op =>
    dsimp only
    split_ifs
    · refine locates_any_bind (.of_locates fun right => ?_)
      exact (locates_term .condition right).bind fun right => locates_pure _
    · exact locates_refuse t .condition

section
variable {expr : Parser Expr} (hexpr : Locates source expr)
  {block : Token → Parser Block} (hblock : ∀ opening, Locates source (block opening))

section
include hblock

/-- A brace of the given place and the block that begins with it. -/
theorem locates_take_block {what : Expectation} {f : Block → Parser β}
    (hf : ∀ body, Locates source (f body)) :
    Locates source (do f (← block (← take .leftBrace what))) :=
  (locates_take .leftBrace what).bind fun opening => (hblock opening).bind hf

theorem locates_functionFrom {signature : Option Signature}
    (hsignature : ∀ s ∈ signature, s.span.Spreads source) (start : Token) :
    Locates source (functionFrom block signature start) := by
  refine (locates_take .identifier .functionName).bind fun name => ?_
  refine (locates_take .equal .functionEquals).bind fun _ => ?_
  refine (locates_checkName name.lexeme hsignature).bind fun _ => ?_
  refine (locates_take .leftBrace .parametersOpen).bind fun _ => ?_
  refine (locates_commaList (locates_parameter signature) .rightBrace).bind fun parameters => ?_
  refine (locates_take .rightBrace .parametersClose).bind fun _ => ?_
  exact locates_take_block hblock fun body => locates_pure _

theorem locates_branchFrom (start : Token) : Locates source (branchFrom block start) := by
  refine locates_condition.bind fun condition => ?_
  refine locates_take_block hblock fun thenBlock => ?_
  refine (locates_accept (.keyword .elseWord)).bind fun otherwise => ?_
  split_ifs
  · exact locates_take_block hblock fun elseBlock => locates_pure _
  · exact locates_pure _

variable {file : Nat} (hsource : Token.InOrder file source)
include hsource

/-- The span of a signature goes from its keyword to the end of its type. -/
theorem locatesFrom_typeFrom (room : Nat) :
    LocatesFrom source (typeFrom (typeExpr room) block) := by
  intro start input hinput
  have hsuffix := (List.suffix_cons start input).trans hinput
  refine (locates_take .identifier .typeName input hsuffix).bind fun name rest hname => ?_
  have hrest := (run_suffix hname).trans hsuffix
  refine (locates_take .equal .typeEquals rest hrest).bind fun equal rest' hequal => ?_
  have hrest' := (run_suffix hequal).trans hrest
  refine (locates_typeExpr room rest' hrest').bind fun definition after hdefinition => ?_
  have hafter := (run_suffix hdefinition).trans hrest'
  obtain ⟨d, rfl, rfl⟩ := (Grammar.typeExpr_reads room).sound hdefinition
  have hread : ((Grammar.typePhrase room).tokens d).Sublist input :=
    (List.sublist_append_left _ _).trans ((run_suffix hequal).trans (run_suffix hname)).sublist
  have htype : (SyntaxNode.type ((Grammar.typePhrase room).value d)).ReadFrom file [] source
      ((Grammar.typePhrase room).tokens d) :=
    Grammar.typePhrase_places hsource room d (hread.trans hsuffix.sublist)
  have hspreads := spreads_cover hsource hinput.sublist hread (Nat.le_refl _) htype.spanned
  dsimp only [SyntaxNode.span] at hspreads
  generalize hvalue : (Grammar.typePhrase room).value d = definition at hspreads
  cases definition with
  | function parameters result span =>
    refine (locates_nextIs (.keyword .funcWord) after hafter).bind_all hafter fun found => ?_
    split_ifs
    · refine locates_any_bind (.of_locates fun next => ?_)
      refine locates_functionFrom hblock ?_ next
      rintro s ⟨⟩
      exact hspreads
    · exact locates_failOver _ hspreads
  | _ => exact locates_pure _ after hafter

theorem locatesFrom_declarationFrom (room : Nat) :
    LocatesFrom source (declarationFrom (typeExpr room) block) := by
  intro t input hinput
  have hsuffix := (List.suffix_cons t input).trans hinput
  unfold declarationFrom
  split
  · exact locatesFrom_typeFrom hblock hsource room t input hinput
  · exact locates_functionFrom hblock (by simp) t input hsuffix
  · exact locates_refuse t .declaration input hsuffix

end

include hexpr

theorem locates_assignmentFrom (name : Token) : Locates source (assignmentFrom expr name) := by
  refine (locates_take .equal .assignedEquals).bind fun _ => ?_
  exact hexpr.bind fun right => locates_pure _

theorem locates_assignment : Locates source (assignment expr) :=
  (locates_take .identifier .assignedName).bind (locates_assignmentFrom hexpr)

include hblock

theorem locates_whileFrom (start : Token) : Locates source (whileFrom expr block start) := by
  refine hexpr.bind fun condition => ?_
  exact locates_take_block hblock fun body => locates_pure _

theorem locates_forFrom (start : Token) : Locates source (forFrom expr block start) := by
  refine (locates_assignment hexpr).bind fun initializer => ?_
  refine (locates_take .semicolon .initializerEnd).bind fun _ => ?_
  refine hexpr.bind fun condition => ?_
  refine (locates_take .semicolon .conditionEnd).bind fun _ => ?_
  refine (locates_assignment hexpr).bind fun increment => ?_
  exact locates_take_block hblock fun body => locates_pure _

theorem locates_statementFrom (t : Token) : Locates source (statementFrom expr block t) := by
  unfold statementFrom
  split
  · exact locates_branchFrom hblock t
  · exact locates_whileFrom hexpr hblock t
  · exact locates_forFrom hexpr hblock t
  · exact (locates_assignmentFrom hexpr t).bind fun assignment => locates_pure _
  · exact locates_refuse t .assignedName

variable {file : Nat} (hsource : Token.InOrder file source)
include hsource

theorem locatesFrom_itemFrom (room : Nat) :
    LocatesFrom source (itemFrom (typeExpr room) expr block) := by
  intro t input hinput
  have hsuffix := (List.suffix_cons t input).trans hinput
  unfold itemFrom
  split_ifs
  · exact (locatesFrom_declarationFrom hblock hsource room t input hinput).bind_all hsuffix
      fun declaration => locates_pure _
  · exact (locates_statementFrom hexpr hblock t input hsuffix).bind_all hsuffix
      fun statement => locates_pure _

theorem locates_blockIn (room : Nat) (opening : Token) :
    Locates source (blockIn (typeExpr room) expr block opening) := by
  refine (locates_extend ?_ []).bind fun items => ?_
  · intro items t c rest hc hrest
    obtain ⟨-, hc⟩ := Option.ite_none_left_eq_some.mp hc
    cases hc
    exact (locatesFrom_itemFrom hexpr hblock hsource room t rest hrest).bind_all
      ((List.suffix_cons t rest).trans hrest) fun item => locates_pure _
  · refine locates_any_bind (.of_locates fun t => ?_)
    split_ifs
    · refine hexpr.bind fun result => ?_
      exact (locates_take .rightBrace .blockClose).bind fun closing => locates_pure _
    · exact locates_pure _

end

section
variable {file : Nat} (hsource : Token.InOrder file source)
include hsource

theorem locates_block (room : Nat) (opening : Token) : Locates source (block room opening) := by
  induction room generalizing opening with
  | zero => exact locates_fail rfl
  | succ room ih =>
    exact locates_blockIn (locates_expr_operand hsource room).1 ih hsource room opening

theorem locates_declarations (room : Nat) : Locates source (declarations room) := by
  refine (locates_extend ?_ []).bind fun ds => locates_pure ds.reverse
  intro before t c rest hc hrest
  cases hc
  exact (locatesFrom_declarationFrom (locates_block hsource room) hsource room t rest
    hrest).bind_all ((List.suffix_cons t rest).trans hrest) fun declaration => locates_pure _

end

end Parser

theorem SyntaxFault.code_of_not_isOver {fault : SyntaxFault} (h : fault.isOver = false) :
    fault.code = "E0100" ∨ fault.code = "E0103" := by
  cases fault with
  | expected what => exact .inl rfl
  | nestingTooDeep => exact .inr rfl
  | ambiguousChain | signatureWithoutFunction | signatureNameMismatch => cases h

/-- Tokens that agree with others up to the one behind `before`. -/
theorem exists_eq_append_of_take {before after tokens : List Token} {t : Token}
    (h : tokens.take (before.length + 1) = (before ++ t :: after).take (before.length + 1)) :
    ∃ rest, tokens = before ++ t :: rest := by
  refine ⟨tokens.drop (before.length + 1), ?_⟩
  have hfront : (before ++ t :: after).take (before.length + 1) = before ++ [t] := by
    rw [List.take_length_add_append]
    rfl
  rw [List.append_cons, ← hfront, ← h, List.take_append_drop]

namespace Program
open Scriptwright.Parser

section
variable {before : List Token} (hbefore : ∀ t ∈ before, t.kind ≠ .endOfText)
include hbefore

/-- A fault in front of a token comes up in front of any others that begin with it. -/
theorem ofTokens_of_here {read more : List Token} {t : Token} (heq : before = read ++ t :: more)
    {fault : SyntaxFault}
    (hrun : (Parser.declarations nestingLimit).run before = .error (.here fault (t :: more)))
    (file : Nat) (rest : List Token) :
    ofTokens file (read ++ t :: rest) = .error (.atToken fault t) := by
  obtain ⟨read', heq', hsame⟩ := (settled_declarations nestingLimit before).stops
    (by rw [hrun]; rfl)
  obtain rfl : read' = read := List.append_cancel_right (heq'.symm.trans heq)
  subst heq
  have hkinds : ∀ u ∈ read' ++ [t], (u.kind != .endOfText) = true := by
    intro u hu
    refine bne_iff_ne.mpr (hbefore u ?_)
    rw [List.append_cons]
    exact List.mem_append_left _ hu
  have hbody : Token.body (read' ++ t :: rest) = read' ++ t :: Token.body rest := by
    rw [List.append_cons, Token.body, List.takeWhile_append_of_pos hkinds, ← List.append_cons]
    rfl
  have hagain := hsame (read' ++ t :: Token.body rest) (t :: Token.body rest) rfl rfl
  rw [hrun] at hagain
  refine ofTokens_eq_error.mpr ⟨.here fault (t :: Token.body rest), ?_, ?_⟩
  · rw [hbody]
    exact hagain
  · rw [SyntaxError.atToken, if_neg (hbefore t (by simp))]
    rfl

/-- A fault at the end of the text comes up wherever the text ends there. -/
theorem ofTokens_of_here_nil {fault : SyntaxFault}
    (hrun : (Parser.declarations nestingLimit).run before = .error (.here fault []))
    {finish : Token} (hfinish : finish.kind = .endOfText) (file : Nat) (rest : List Token) :
    ofTokens file (before ++ finish :: rest) = .error (.atToken fault finish) := by
  refine ofTokens_eq_error.mpr ⟨.here fault [], ?_, ?_⟩
  · rw [Token.body_append_cons hbefore hfinish]
    exact hrun
  · rw [Token.finishSpan_append_cons hbefore file hfinish, SyntaxError.atToken, if_pos hfinish]
    rfl

end

theorem getElem?_body_or_finish {body : List Token} {finish t : Token} {k : Nat}
    (h : (body ++ [finish])[k]? = some t) : body[k]? = some t ∨ k = body.length ∧ t = finish := by
  rcases Nat.lt_or_ge k body.length with hk | hk
  · rw [List.getElem?_append_left hk] at h
    exact .inl h
  · rw [List.getElem?_append_right hk, List.getElem?_singleton] at h
    split_ifs at h with hzero
    exact .inr ⟨by omega, (Option.some.inj h).symm⟩

/-- An error that has the span of a token is found in that token, and it is found again
whatever tokens come behind it. -/
theorem ofTokens_of_take_eq {file other : Nat} {text : String} {tokens tokens' : List Token}
    {e : SyntaxError} {k : Nat} {t : Token} (hscan : scan file text = .ok tokens)
    (herror : ofTokens file tokens = .error e) (ht : tokens[k]? = some t)
    (hspan : e.span = t.span) (hagree : tokens'.take (k + 1) = tokens.take (k + 1)) :
    ofTokens other tokens' = .error e ∧ e = .atToken e.fault t ∧
      (e.fault.code = "E0100" ∨ e.fault.code = "E0103") := by
  obtain ⟨body, stop, rfl, hkinds, -, horder⟩ := exists_inOrder_of_scan hscan
  have hbody : Token.body (body ++ [.finish file stop]) = body :=
    Token.body_append_cons hkinds rfl []
  have hfinish : Token.finishSpan file (body ++ [.finish file stop]) = .point file stop :=
    Token.finishSpan_append_cons hkinds file rfl []
  obtain ⟨failure, hrun, he⟩ := ofTokens_eq_error.mp herror
  rw [hbody] at hrun
  rw [hfinish] at he
  have hlocated := locates_declarations horder nestingLimit body (List.suffix_refl _) failure hrun
  -- The token is one of the text, which takes some bytes, or the end, which takes none.
  have hplace := getElem?_body_or_finish ht
  rcases failure with ⟨fault, rest⟩ | ⟨fault, span⟩
  · cases rest with
    | nil =>
      rcases hplace with hmem | ⟨rfl, rfl⟩
      · have hnonempty := horder.nonempty t (List.mem_of_getElem? hmem)
        rw [← hspan, he] at hnonempty
        exact absurd hnonempty (Nat.lt_irrefl _)
      · obtain ⟨rest, rfl⟩ := exists_eq_append_of_take hagree
        have hkind : (Token.finish file stop).kind = .endOfText := rfl
        have hagain := ofTokens_of_here_nil hkinds hrun hkind
        have he' : e = .atToken fault (.finish file stop) :=
          Except.error.inj (herror.symm.trans (hagain file []))
        subst he'
        exact ⟨hagain other rest, rfl, SyntaxFault.code_of_not_isOver hlocated⟩
    | cons u more =>
      obtain ⟨read, heq, -⟩ := (settled_declarations nestingLimit body).stops
        (by rw [hrun]; rfl)
      rw [List.nil_append] at heq
      have hu : body[read.length]? = some u := by
        rw [heq, List.getElem?_append_right (Nat.le_refl _), Nat.sub_self]
        rfl
      have husame : u.span = t.span := by rw [← hspan, he]; rfl
      rcases hplace with hmem | ⟨-, rfl⟩
      · obtain rfl := horder.index_eq hmem hu husame.symm
        obtain rfl : t = u := Option.some.inj (hmem.symm.trans hu)
        have hagain := ofTokens_of_here hkinds heq hrun
        rw [heq, List.append_assoc, List.cons_append] at herror hagree
        obtain ⟨rest, rfl⟩ := exists_eq_append_of_take hagree
        have he' : e = .atToken fault t :=
          Except.error.inj (herror.symm.trans (hagain file _))
        subst he'
        exact ⟨hagain other rest, rfl, SyntaxFault.code_of_not_isOver hlocated⟩
      · have hnonempty := horder.nonempty u (List.mem_of_getElem? hu)
        rw [husame] at hnonempty
        exact absurd hnonempty (Nat.lt_irrefl _)
  · rw [he] at hspan
    rcases hplace with hmem | ⟨-, rfl⟩
    · exact absurd hspan (hlocated.ne_span horder (List.mem_of_getElem? hmem))
    · have hnonempty := hlocated.nonempty horder
      have hempty : span = .point file stop := hspan
      rw [hempty] at hnonempty
      exact absurd hnonempty (Nat.lt_irrefl _)

/-- The tokens of `type = x`, where the name of the type is missing. -/
def namelessType : List Token :=
  [⟨.keyword .typeWord, "type", .none, ⟨0, 0, 4⟩⟩, ⟨.equal, "=", .none, ⟨0, 5, 6⟩⟩,
    ⟨.identifier, "x", .none, ⟨0, 7, 8⟩⟩, .finish 0 8]

theorem ofTokens_of_missing_name :
    scan 0 "type = x" = .ok namelessType ∧
      ∀ rest, ofTokens 1 (namelessType.take 2 ++ rest) =
        .error ⟨.expected .typeName, "=", ⟨0, 5, 6⟩⟩ := by
  have hscan : scan 0 "type = x" = .ok namelessType := by decide +kernel
  have herror : ofTokens 0 namelessType = .error ⟨.expected .typeName, "=", ⟨0, 5, 6⟩⟩ := by cbv
  refine ⟨hscan, fun rest => ?_⟩
  have hsecond : namelessType[1]? = some ⟨.equal, "=", .none, ⟨0, 5, 6⟩⟩ := rfl
  have hagree : (namelessType.take 2 ++ rest).take 2 = namelessType.take 2 := rfl
  exact (ofTokens_of_take_eq hscan herror hsecond rfl hagree).1

end Program

end Scriptwright
