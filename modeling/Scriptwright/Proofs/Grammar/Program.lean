import Scriptwright.Proofs.Grammar.Expr
import Scriptwright.Proofs.Grammar.TypeExpr

/-!
# Recognizing programs

The parsers of declarations, statements and blocks read exactly those of the grammar.
A block ends with its brace whatever follows. A statement may end with an expression
or before an `else`, and a type declaration with a type expression, so what follows
an item must go on with none of these. Nothing that can begin an item does.
-/

namespace Scriptwright.Grammar
open Scriptwright.Parser

/-- What goes on with a statement. -/
def statementContinues (k : Kind) : Bool := exprContinues k || k == .keyword .elseWord

/-- What goes on with an item of a block. -/
def itemContinues (k : Kind) : Bool := statementContinues k || typeContinues k

def itemStarts : Kind → Bool
  | .keyword .typeWord | .keyword .funcWord | .keyword .ifWord | .keyword .whileWord
  | .keyword .forWord | .identifier => true
  | _ => false

/-- The parser, given an opening brace, reads the blocks that begin with it. -/
structure ReadsBlock (block : Token → Parser Block) (B : Phrase Block) : Prop where
  sound {opening : Token} (ho : opening.kind = .leftBrace) {input rest : List Token} {b : Block}
    (h : (block opening).run input = .ok (b, rest)) :
    ∃ d, opening :: input = B.tokens d ++ rest ∧ b = B.value d
  complete (d : B.Tree) (rest : List Token) :
    ∃ (opening : Terminal .leftBrace) (ts : List Token), B.tokens d = opening.val :: ts ∧
      (block opening.val).run (ts ++ rest) = .ok (B.value d, rest)

variable {T : Phrase TypeExpr} {E : Phrase Expr} {B : Phrase Block}
variable {typeExpr : Parser TypeExpr} {expr : Parser Expr} {block : Token → Parser Block}

theorem StatementTree.begins : Begins (@StatementTree.tokens E B) itemStarts := by
  intro d
  cases d with
  | assign d => exact ⟨d.name.val, _, rfl, by rw [d.name.property]; rfl⟩
  | branch start => exact ⟨start.val, _, rfl, by rw [start.property]; rfl⟩
  | branchElse start => exact ⟨start.val, _, rfl, by rw [start.property]; rfl⟩
  | whileLoop start => exact ⟨start.val, _, rfl, by rw [start.property]; rfl⟩
  | forLoop start => exact ⟨start.val, _, rfl, by rw [start.property]; rfl⟩

def declarationStarts (k : Kind) : Bool := k == .keyword .typeWord || k == .keyword .funcWord

theorem DeclarationTree.begins : Begins (@DeclarationTree.tokens T B) declarationStarts := by
  intro d
  cases d with
  | function d => exact ⟨d.start.val, _, rfl, by rw [d.start.property]; rfl⟩
  | typeName d => exact ⟨d.start.val, _, rfl, by rw [d.start.property]; rfl⟩
  | signed d => exact ⟨d.start.val, _, rfl, by rw [d.start.property]; rfl⟩

theorem itemStarts_of_declaration {k : Kind} (h : declarationStarts k = true) :
    itemStarts k = true := by
  simp only [declarationStarts, Bool.or_eq_true, beq_iff_eq] at h
  rcases h with rfl | rfl <;> rfl

theorem ItemTree.begins : Begins (@ItemTree.tokens T E B) itemStarts := by
  intro d
  cases d with
  | declaration d =>
    obtain ⟨t, ts, ht, hs⟩ := DeclarationTree.begins d
    exact ⟨t, ts, ht, itemStarts_of_declaration hs⟩
  | statement d => exact StatementTree.begins d

theorem itemContinues_of_starts {k : Kind} (h : itemStarts k = true) :
    itemContinues k = false := by
  cases k with
  | identifier => rfl
  | keyword word =>
    cases word with
    | typeWord | funcWord | ifWord | whileWord | forWord => rfl
    | _ => cases h
  | _ => cases h

theorem exprContinues_of_statement {k : Kind} (h : statementContinues k = false) :
    exprContinues k = false := by
  simp only [statementContinues, Bool.or_eq_false_iff] at h
  exact h.1

theorem parameter_reads (signature : Option Signature) :
    Reads (parameter signature) (fun name : Terminal .identifier => [name.val])
      (fun name => ⟨name.val.lexeme,
        signature.bind fun s => Record.get? name.val.lexeme s.parameters.fields, name.val.span⟩)
      (fun _ => false) where
  sound := by
    intro input rest a hrun
    simp only [parameter, run_bind_eq_ok, run_take_eq_ok] at hrun
    obtain ⟨name, _, ⟨rfl, hname⟩, hpure⟩ := hrun
    cases hpure
    exact ⟨⟨name, hname⟩, rfl, rfl⟩
  complete := by
    intro name rest _
    rw [parameter, List.cons_append, run_take_bind]
    rfl

theorem begins_parameter :
    Begins (fun name : Terminal .identifier => [name.val]) (· == .identifier) := by
  intro name
  exact ⟨name.val, [], rfl, by simp [name.property]⟩

theorem run_checkName_eq_ok {name : String} {signature : Option Signature}
    {input rest : List Token} {u : Unit} :
    (checkName name signature).run input = .ok (u, rest) ↔
      rest = input ∧ ∀ s ∈ signature, s.name = name := by
  cases signature with
  | none => simp [checkName, eq_comm]
  | some s =>
    by_cases h : s.name = name <;> simp [checkName, h, @eq_comm _ rest]

/-- The part of a signature that a function takes over. -/
def Signature.types (s : Signature) : Interface × TypeExpr := (s.parameters, s.result)

theorem functionFrom_sound (hB : ReadsBlock block B) {signature : Option Signature}
    {start : Token} (hs : start.kind = .keyword .funcWord) {input rest : List Token}
    {a : Declaration} (hrun : (functionFrom block signature start).run input = .ok (a, rest)) :
    ∃ d : FunctionTree B, start :: input = d.tokens ++ rest ∧
      a = d.value (signature.map Signature.types) ∧
      ∀ s ∈ signature, s.name = d.name.val.lexeme := by
  simp only [functionFrom, run_bind_eq_ok, run_take_eq_ok, run_checkName_eq_ok] at hrun
  obtain ⟨name, _, ⟨rfl, hname⟩, equal, _, ⟨rfl, hequal⟩, _, _, ⟨rfl, hcheck⟩, opening, _,
    ⟨rfl, hopening⟩, parameters, _, hparameters, closing, _, ⟨rfl, hclosing⟩, brace, _,
    ⟨rfl, hbrace⟩, body, _, hbody, hpure⟩ := hrun
  obtain ⟨names, rfl, rfl⟩ := commaList_sound (parameter_reads signature) hparameters
  obtain ⟨d, hd, rfl⟩ := hB.sound hbrace hbody
  cases hpure
  refine ⟨⟨⟨start, hs⟩, ⟨name, hname⟩, ⟨equal, hequal⟩, ⟨opening, hopening⟩, names,
    ⟨closing, hclosing⟩, d⟩, ?_, ?_, hcheck⟩
  · rw [hd]
    simp [FunctionTree.tokens]
  · cases signature <;> rfl

theorem functionFrom_complete (hB : ReadsBlock block B) {signature : Option Signature}
    (d : FunctionTree B) (hname : ∀ s ∈ signature, s.name = d.name.val.lexeme)
    (rest : List Token) :
    (functionFrom block signature d.start.val).run (d.tokens.tail ++ rest) =
      .ok (d.value (signature.map Signature.types), rest) := by
  obtain ⟨brace, ts, hts, hbody⟩ := hB.complete d.body rest
  have hparameters : (commaList .rightBrace (parameter signature)).run _ = _ :=
    commaList_complete (parameter_reads signature) begins_parameter rfl rfl rfl (by decide)
      d.parameters d.closing.property (brace.val :: (ts ++ rest))
  unfold functionFrom
  rw [FunctionTree.tokens, List.tail_cons, hts, List.cons_append, run_take_bind, List.cons_append,
    run_take_bind, run_bind_of_ok (run_checkName_eq_ok (u := ()).mpr ⟨rfl, hname⟩),
    List.cons_append, run_take_bind, List.append_assoc, List.cons_append, List.cons_append,
    run_bind_of_ok hparameters, run_take_bind, run_take_bind, run_bind_of_ok hbody]
  cases signature <;> rfl

theorem functionType?_eq_some {t : TypeExpr} {parameters : Interface} {result : TypeExpr} :
    functionType? t = some (parameters, result) ↔ ∃ span, t = .function parameters result span := by
  cases t <;> simp [functionType?]

theorem functionType?_eq_none {t : TypeExpr} :
    functionType? t = none ↔ ∀ parameters result span, t ≠ .function parameters result span := by
  cases t <;> simp [functionType?]

section
variable (hT : ReadsPhrase typeExpr T typeContinues) (hB : ReadsBlock block B)
include hT hB

theorem typeFrom_sound {start : Token} (hs : start.kind = .keyword .typeWord)
    {input rest : List Token} {a : Declaration}
    (hrun : (typeFrom typeExpr block start).run input = .ok (a, rest)) :
    ∃ d : DeclarationTree T B, start :: input = d.tokens ++ rest ∧ a = d.value := by
  simp only [typeFrom, run_bind_eq_ok, run_take_eq_ok] at hrun
  obtain ⟨name, _, ⟨rfl, hname⟩, equal, _, ⟨rfl, hequal⟩, type, later, htype, hrun⟩ := hrun
  obtain ⟨d, rfl, rfl⟩ := hT.sound htype
  let definition : DefinitionTree T := ⟨⟨start, hs⟩, ⟨name, hname⟩, ⟨equal, hequal⟩, d⟩
  split at hrun
  · next parameters result span hvalue =>
    simp only [run_bind_eq_ok, run_nextIs] at hrun
    obtain ⟨isFunction, _, hnext, hrun⟩ := hrun
    cases hnext
    split_ifs at hrun with hfunc
    · simp only [run_bind_eq_ok, run_any_eq_ok] at hrun
      obtain ⟨func, _, rfl, hrun⟩ := hrun
      have hk : func.kind = .keyword .funcWord := by simpa using hfunc
      obtain ⟨f, hf, rfl, hsame⟩ := functionFrom_sound hB hk hrun
      refine ⟨.signed definition parameters result (functionType?_eq_some.mpr ⟨span, hvalue⟩) f
        (hsame _ rfl), ?_, rfl⟩
      rw [hf]
      simp [DeclarationTree.tokens, DefinitionTree.tokens, definition]
    · cases hrun
  · next hplain =>
    cases hrun
    exact ⟨.typeName definition (functionType?_eq_none.mpr hplain), rfl, rfl⟩

theorem declarationFrom_sound {t : Token} {input rest : List Token} {a : Declaration}
    (hrun : (declarationFrom typeExpr block t).run input = .ok (a, rest)) :
    ∃ d : DeclarationTree T B, t :: input = d.tokens ++ rest ∧ a = d.value := by
  unfold declarationFrom at hrun
  split at hrun
  · next hk => exact typeFrom_sound hT hB hk hrun
  · next hk =>
    obtain ⟨f, hf, rfl, -⟩ := functionFrom_sound hB hk hrun
    exact ⟨.function f, hf, rfl⟩
  · cases hrun

/-- A declaration that ends with a function ends with its brace, whatever follows. -/
theorem declarationFrom_complete (d : DeclarationTree T B) {rest : List Token}
    (hends : ∀ definition plain, d = .typeName definition plain → Ends typeContinues rest) :
    ∃ t ts, d.tokens = t :: ts ∧
      (declarationFrom typeExpr block t).run (ts ++ rest) = .ok (d.value, rest) := by
  cases d with
  | function d =>
    refine ⟨d.start.val, _, rfl, ?_⟩
    unfold declarationFrom
    simp only [d.start.property]
    refine functionFrom_complete hB d ?_ rest
    intro s hs
    cases hs
  | typeName definition plain =>
    refine ⟨definition.start.val, _, rfl, ?_⟩
    unfold declarationFrom typeFrom
    simp only [definition.start.property, List.cons_append]
    rw [run_take_bind, run_take_bind, run_bind_of_ok (hT.complete definition.type (hends _ _ rfl))]
    split
    · next parameters result span hvalue => rw [hvalue] at plain; cases plain
    · rfl
  | signed definition parameters result signature d sameName =>
    refine ⟨definition.start.val, definition.tokens.tail ++ d.tokens, rfl, ?_⟩
    have hfunc : Ends typeContinues (d.tokens ++ rest) := by
      rw [FunctionTree.tokens, List.cons_append, ends_cons, d.start.property]
      rfl
    have hnext : (d.tokens ++ rest).head?.any (·.kind = .keyword .funcWord) = true := by
      simp [FunctionTree.tokens, d.start.property]
    unfold declarationFrom typeFrom
    simp only [definition.start.property, DefinitionTree.tokens, List.tail_cons, List.cons_append,
      List.append_assoc]
    rw [run_take_bind, run_take_bind, run_bind_of_ok (hT.complete definition.type hfunc)]
    obtain ⟨span, hvalue⟩ := functionType?_eq_some.mp signature
    simp only [hvalue]
    rw [run_bind_of_ok (run_nextIs _ _), if_pos hnext, FunctionTree.tokens, List.cons_append,
      run_any_bind]
    refine functionFrom_complete hB d ?_ rest
    intro s hs
    cases hs
    exact sameName

end

theorem comparison?_eq (k : Kind) :
    comparison? k = (BinaryOp.ofKind? k).filter isComparison := by
  cases k with
  | keyword word => cases word <;> rfl
  | _ => rfl

theorem condition_sound {input rest : List Token} {e : Expr}
    (hrun : condition.run input = .ok (e, rest)) :
    ∃ d : ConditionTree, input = d.tokens ++ rest ∧ e = d.value := by
  simp only [condition, run_bind_eq_ok, run_take_eq_ok, run_any_eq_ok] at hrun
  obtain ⟨name, _, ⟨rfl, hname⟩, sign, later, rfl, hrun⟩ := hrun
  split at hrun
  · cases hrun
  · next op hop =>
    split_ifs at hrun with hcomparison
    · simp only [run_bind_eq_ok, run_any_eq_ok, run_term_eq_ok] at hrun
      obtain ⟨t, _, rfl, right, _, ⟨hright, rfl⟩, hpure⟩ := hrun
      cases hpure
      have hsign : comparison? sign.kind = some op := by
        simp [comparison?_eq, hop, hcomparison]
      exact ⟨⟨⟨name, hname⟩, ⟨sign, op, hsign⟩, ⟨t, right, hright⟩⟩, rfl, rfl⟩
    · cases hrun

theorem run_condition (d : ConditionTree) (rest : List Token) :
    condition.run (d.tokens ++ rest) = .ok (d.value, rest) := by
  have hsign := d.sign.spells
  rw [comparison?_eq, Option.filter_eq_some_iff] at hsign
  unfold condition ConditionTree.tokens
  rw [List.cons_append, run_take_bind, List.cons_append, run_any_bind]
  simp only [hsign.1, hsign.2, if_true]
  rw [List.cons_append, run_any_bind, List.nil_append, run_bind_of_ok (run_term d.right _ _)]
  rfl

section
variable (hE : ReadsPhrase expr E exprContinues)
include hE

theorem assignmentFrom_sound {name : Token} (hname : name.kind = .identifier)
    {input rest : List Token} {a : Assignment}
    (hrun : (assignmentFrom expr name).run input = .ok (a, rest)) :
    ∃ d : AssignmentTree E, name :: input = d.tokens ++ rest ∧ a = d.value := by
  simp only [assignmentFrom, run_bind_eq_ok, run_take_eq_ok] at hrun
  obtain ⟨equal, _, ⟨rfl, hequal⟩, right, _, hright, hpure⟩ := hrun
  obtain ⟨d, rfl, rfl⟩ := hE.sound hright
  cases hpure
  exact ⟨⟨⟨name, hname⟩, ⟨equal, hequal⟩, d⟩, rfl, rfl⟩

theorem run_assignmentFrom (d : AssignmentTree E) {rest : List Token}
    (hends : Ends exprContinues rest) :
    (assignmentFrom expr d.name.val).run (d.tokens.tail ++ rest) = .ok (d.value, rest) := by
  unfold assignmentFrom
  rw [AssignmentTree.tokens, List.tail_cons, List.cons_append, run_take_bind,
    run_bind_of_ok (hE.complete d.right hends)]
  rfl

theorem assignment_reads :
    Reads (assignment expr) (@AssignmentTree.tokens E) AssignmentTree.value exprContinues where
  sound := by
    intro input rest a hrun
    simp only [assignment, run_bind_eq_ok, run_take_eq_ok] at hrun
    obtain ⟨name, _, ⟨rfl, hname⟩, hrun⟩ := hrun
    exact assignmentFrom_sound hE hname hrun
  complete := by
    intro d rest hends
    rw [assignment, AssignmentTree.tokens, List.cons_append, run_take_bind]
    exact run_assignmentFrom hE d hends

end

section
variable (hB : ReadsBlock block B)
include hB

theorem branchFrom_sound {start : Token} (hs : start.kind = .keyword .ifWord)
    {input rest : List Token} {a : Statement}
    (hrun : (branchFrom block start).run input = .ok (a, rest)) :
    ∃ d : StatementTree E B, start :: input = d.tokens ++ rest ∧ a = d.value := by
  simp only [branchFrom, run_bind_eq_ok, run_take_eq_ok] at hrun
  obtain ⟨e, _, hcondition, opening, _, ⟨rfl, hopening⟩, thenBlock, _, hthen, isElse, _, haccept,
    hrun⟩ := hrun
  obtain ⟨condition, rfl, rfl⟩ := condition_sound hcondition
  obtain ⟨d, hd, rfl⟩ := hB.sound hopening hthen
  rcases run_accept_eq_ok.mp haccept with ⟨rfl, otherwise, hotherwise, rfl⟩ | ⟨rfl, rfl, -⟩
  · simp only [if_true, run_bind_eq_ok, run_take_eq_ok] at hrun
    obtain ⟨brace, _, ⟨rfl, hbrace⟩, elseBlock, _, helse, hpure⟩ := hrun
    obtain ⟨d', hd', rfl⟩ := hB.sound hbrace helse
    cases hpure
    refine ⟨.branchElse ⟨start, hs⟩ condition d ⟨otherwise, hotherwise⟩ d', ?_, rfl⟩
    rw [hd, hd']
    simp [StatementTree.tokens]
  · cases hrun
    refine ⟨.branch ⟨start, hs⟩ condition d, ?_, rfl⟩
    rw [hd]
    simp [StatementTree.tokens]

theorem run_branchFrom (start : Terminal (.keyword .ifWord)) (condition : ConditionTree)
    (thenBlock : B.Tree) {rest : List Token}
    (helse : ∀ t ∈ rest.head?, t.kind ≠ .keyword .elseWord) :
    (branchFrom block start.val).run (condition.tokens ++ (B.tokens thenBlock ++ rest)) =
      .ok ((StatementTree.branch start condition thenBlock : StatementTree E B).value, rest) := by
  obtain ⟨opening, ts, hts, hthen⟩ := hB.complete thenBlock rest
  unfold branchFrom
  rw [run_bind_of_ok (run_condition condition _), hts, List.cons_append, run_take_bind,
    run_bind_of_ok hthen, run_bind_of_ok (run_accept_of_ne helse)]
  rfl

theorem run_branchFrom_else (start : Terminal (.keyword .ifWord)) (condition : ConditionTree)
    (thenBlock : B.Tree) (otherwise : Terminal (.keyword .elseWord)) (elseBlock : B.Tree)
    (rest : List Token) :
    (branchFrom block start.val).run (condition.tokens ++ (B.tokens thenBlock ++
        otherwise.val :: (B.tokens elseBlock ++ rest))) =
      .ok ((StatementTree.branchElse start condition thenBlock otherwise elseBlock :
        StatementTree E B).value, rest) := by
  obtain ⟨brace, us, hus, helse⟩ := hB.complete elseBlock rest
  obtain ⟨opening, ts, hts, hthen⟩ := hB.complete thenBlock
    (otherwise.val :: (B.tokens elseBlock ++ rest))
  unfold branchFrom
  rw [run_bind_of_ok (run_condition condition _), hts, List.cons_append, run_take_bind,
    run_bind_of_ok hthen, run_bind_of_ok (run_accept_of_kind otherwise.property _), if_pos rfl,
    hus, List.cons_append, run_take_bind, run_bind_of_ok helse]
  rfl

end

section
variable (hE : ReadsPhrase expr E exprContinues) (hB : ReadsBlock block B)
include hE hB

theorem whileFrom_sound {start : Token} (hs : start.kind = .keyword .whileWord)
    {input rest : List Token} {a : Statement}
    (hrun : (whileFrom expr block start).run input = .ok (a, rest)) :
    ∃ d : StatementTree E B, start :: input = d.tokens ++ rest ∧ a = d.value := by
  simp only [whileFrom, run_bind_eq_ok, run_take_eq_ok] at hrun
  obtain ⟨e, _, hcondition, opening, _, ⟨rfl, hopening⟩, body, _, hbody, hpure⟩ := hrun
  obtain ⟨condition, rfl, rfl⟩ := hE.sound hcondition
  obtain ⟨d, hd, rfl⟩ := hB.sound hopening hbody
  cases hpure
  refine ⟨.whileLoop ⟨start, hs⟩ condition d, ?_, rfl⟩
  rw [hd]
  simp [StatementTree.tokens]

theorem run_whileFrom (start : Terminal (.keyword .whileWord)) (condition : E.Tree)
    (body : B.Tree) (rest : List Token) :
    (whileFrom expr block start.val).run (E.tokens condition ++ (B.tokens body ++ rest)) =
      .ok ((StatementTree.whileLoop start condition body : StatementTree E B).value, rest) := by
  obtain ⟨opening, ts, hts, hbody⟩ := hB.complete body rest
  have hends : Ends exprContinues (opening.val :: (ts ++ rest)) := by
    rw [ends_cons, opening.property]
    rfl
  unfold whileFrom
  rw [hts, List.cons_append, run_bind_of_ok (hE.complete condition hends), run_take_bind,
    run_bind_of_ok hbody]
  rfl

theorem forFrom_sound {start : Token} (hs : start.kind = .keyword .forWord)
    {input rest : List Token} {a : Statement}
    (hrun : (forFrom expr block start).run input = .ok (a, rest)) :
    ∃ d : StatementTree E B, start :: input = d.tokens ++ rest ∧ a = d.value := by
  simp only [forFrom, run_bind_eq_ok, run_take_eq_ok] at hrun
  obtain ⟨i, _, hinitializer, first, _, ⟨rfl, hfirst⟩, e, _, hcondition, second, _, ⟨rfl, hsecond⟩,
    j, _, hincrement, opening, _, ⟨rfl, hopening⟩, body, _, hbody, hpure⟩ := hrun
  obtain ⟨initializer, rfl, rfl⟩ := (assignment_reads hE).sound hinitializer
  obtain ⟨condition, rfl, rfl⟩ := hE.sound hcondition
  obtain ⟨increment, rfl, rfl⟩ := (assignment_reads hE).sound hincrement
  obtain ⟨d, hd, rfl⟩ := hB.sound hopening hbody
  cases hpure
  refine ⟨.forLoop ⟨start, hs⟩ initializer ⟨first, hfirst⟩ condition ⟨second, hsecond⟩ increment d,
    ?_, rfl⟩
  rw [hd]
  simp [StatementTree.tokens]

theorem run_forFrom (start : Terminal (.keyword .forWord)) (initializer : AssignmentTree E)
    (first : Terminal .semicolon) (condition : E.Tree) (second : Terminal .semicolon)
    (increment : AssignmentTree E) (body : B.Tree) (rest : List Token) :
    (forFrom expr block start.val).run (initializer.tokens ++ first.val ::
        (E.tokens condition ++ second.val :: (increment.tokens ++ (B.tokens body ++ rest)))) =
      .ok ((StatementTree.forLoop start initializer first condition second increment body :
        StatementTree E B).value, rest) := by
  obtain ⟨opening, ts, hts, hbody⟩ := hB.complete body rest
  have hbrace : Ends exprContinues (opening.val :: (ts ++ rest)) := by
    rw [ends_cons, opening.property]
    rfl
  have hsemicolon : ∀ (t : Terminal .semicolon) (later : List Token),
      Ends exprContinues (t.val :: later) := by
    intro t later
    rw [ends_cons, t.property]
    rfl
  unfold forFrom
  rw [hts, List.cons_append,
    run_bind_of_ok ((assignment_reads hE).complete initializer (hsemicolon first _)),
    run_take_bind, run_bind_of_ok (hE.complete condition (hsemicolon second _)), run_take_bind,
    run_bind_of_ok ((assignment_reads hE).complete increment hbrace), run_take_bind,
    run_bind_of_ok hbody]
  rfl

theorem statementFrom_sound {t : Token} {input rest : List Token} {a : Statement}
    (hrun : (statementFrom expr block t).run input = .ok (a, rest)) :
    ∃ d : StatementTree E B, t :: input = d.tokens ++ rest ∧ a = d.value := by
  unfold statementFrom at hrun
  split at hrun
  · next hk => exact branchFrom_sound hB hk hrun
  · next hk => exact whileFrom_sound hE hB hk hrun
  · next hk => exact forFrom_sound hE hB hk hrun
  · next hk =>
    rw [run_bind_eq_ok] at hrun
    obtain ⟨a, _, hassignment, hpure⟩ := hrun
    obtain ⟨d, hd, rfl⟩ := assignmentFrom_sound hE hk hassignment
    cases hpure
    exact ⟨.assign d, hd, rfl⟩
  · cases hrun

theorem statementFrom_complete (d : StatementTree E B) {rest : List Token}
    (hends : Ends statementContinues rest) :
    ∃ t ts, d.tokens = t :: ts ∧
      (statementFrom expr block t).run (ts ++ rest) = .ok (d.value, rest) := by
  have hexpr : Ends exprContinues rest := hends.mono fun _ => exprContinues_of_statement
  cases d with
  | assign d =>
    refine ⟨d.name.val, d.tokens.tail, rfl, ?_⟩
    unfold statementFrom
    simp only [d.name.property]
    rw [run_bind_of_ok (run_assignmentFrom hE d hexpr)]
    rfl
  | branch start condition thenBlock =>
    refine ⟨start.val, _, rfl, ?_⟩
    have helse : ∀ t ∈ rest.head?, t.kind ≠ .keyword .elseWord := by
      intro t ht hk
      have hfalse := hends t ht
      rw [hk] at hfalse
      cases hfalse
    unfold statementFrom
    simp only [start.property]
    rw [List.append_assoc]
    exact run_branchFrom hB start condition thenBlock helse
  | branchElse start condition thenBlock otherwise elseBlock =>
    refine ⟨start.val, _, rfl, ?_⟩
    unfold statementFrom
    simp only [start.property]
    rw [List.append_assoc, List.append_assoc, List.cons_append]
    exact run_branchFrom_else hB start condition thenBlock otherwise elseBlock rest
  | whileLoop start condition body =>
    refine ⟨start.val, _, rfl, ?_⟩
    unfold statementFrom
    simp only [start.property]
    rw [List.append_assoc]
    exact run_whileFrom hE hB start condition body rest
  | forLoop start initializer first condition second increment body =>
    refine ⟨start.val, _, rfl, ?_⟩
    unfold statementFrom
    simp only [start.property, List.append_assoc, List.cons_append]
    exact run_forFrom hE hB start initializer first condition second increment body rest

end

theorem itemStart?_eq_none {t : Token} :
    itemStart? t = none ↔ t.kind = .rightBrace ∨ t.kind = .keyword .returnWord := by
  unfold itemStart?
  split_ifs with h <;> simp [h]

theorem itemStart?_eq_some {t c : Token} (h : itemStart? t = some c) : c = t := by
  unfold itemStart? at h
  split_ifs at h
  exact (Option.some.inj h).symm

theorem itemStart?_of_starts {t : Token} (h : itemStarts t.kind = true) :
    itemStart? t = some t := by
  refine if_neg ?_
  rintro (hk | hk)
  · rw [hk] at h
    cases h
  · rw [hk] at h
    cases h

theorem declarationStarts_iff {k : Kind} :
    declarationStarts k = true ↔ k = .keyword .typeWord ∨ k = .keyword .funcWord := by
  simp [declarationStarts]

theorem StatementTree.not_declarationStarts (d : StatementTree E B) {t : Token} {ts : List Token}
    (h : d.tokens = t :: ts) : ¬ (t.kind = .keyword .typeWord ∨ t.kind = .keyword .funcWord) := by
  cases d with
  | assign d => cases h; simp [d.name.property]
  | branch start => cases h; simp [start.property]
  | branchElse start => cases h; simp [start.property]
  | whileLoop start => cases h; simp [start.property]
  | forLoop start => cases h; simp [start.property]

section
variable (hT : ReadsPhrase typeExpr T typeContinues) (hE : ReadsPhrase expr E exprContinues)
  (hB : ReadsBlock block B)
include hT hE hB

theorem itemFrom_sound {t : Token} {input rest : List Token} {a : Item}
    (hrun : (itemFrom typeExpr expr block t).run input = .ok (a, rest)) :
    ∃ d : ItemTree T E B, t :: input = d.tokens ++ rest ∧ a = d.value := by
  unfold itemFrom at hrun
  split_ifs at hrun with hk
  · obtain ⟨a, _, hdeclaration, hpure⟩ := run_bind_eq_ok.mp hrun
    obtain ⟨d, hd, rfl⟩ := declarationFrom_sound hT hB hdeclaration
    cases hpure
    exact ⟨.declaration d, hd, rfl⟩
  · obtain ⟨a, _, hstatement, hpure⟩ := run_bind_eq_ok.mp hrun
    obtain ⟨d, hd, rfl⟩ := statementFrom_sound hE hB hstatement
    cases hpure
    exact ⟨.statement d, hd, rfl⟩

theorem itemFrom_complete (d : ItemTree T E B) {rest : List Token}
    (hends : Ends itemContinues rest) :
    ∃ t ts c, d.tokens = t :: ts ∧ itemStart? t = some c ∧
      (itemFrom typeExpr expr block c).run (ts ++ rest) = .ok (d.value, rest) := by
  have hitem : ∀ k, itemContinues k = false →
      statementContinues k = false ∧ typeContinues k = false := by
    intro k hk
    exact Bool.or_eq_false_iff.mp hk
  obtain ⟨u, us, hu, hstarts⟩ := ItemTree.begins d
  refine ⟨u, us, u, hu, itemStart?_of_starts hstarts, ?_⟩
  unfold itemFrom
  cases d with
  | declaration d =>
    obtain ⟨t, ts, ht, hrun⟩ := declarationFrom_complete hT hB d
      fun _ _ _ => hends.mono fun k hk => (hitem k hk).2
    obtain ⟨v, vs, hv, hk⟩ := DeclarationTree.begins d
    cases hu.symm.trans ht
    cases hu.symm.trans hv
    rw [if_pos (declarationStarts_iff.mp hk), run_bind_of_ok hrun]
    rfl
  | statement d =>
    obtain ⟨t, ts, ht, hrun⟩ := statementFrom_complete hE hB d
      (hends.mono fun k hk => (hitem k hk).1)
    cases hu.symm.trans ht
    rw [if_neg (d.not_declarationStarts ht), run_bind_of_ok hrun]
    rfl

theorem items_sound {values : List Item} {input rest : List Token}
    (hrun : run (extend itemStart? (collect (itemFrom typeExpr expr block)) []) input =
      .ok (values, rest)) :
    ∃ ds : List (ItemTree T E B), input = ds.flatMap ItemTree.tokens ++ rest ∧
      values.reverse = ds.map ItemTree.value ∧
      ∀ t ∈ rest.head?, t.kind = .rightBrace ∨ t.kind = .keyword .returnWord := by
  have hstep : ∀ {t c : Token} {input rest : List Token} {a : Item}, itemStart? t = some c →
      (itemFrom typeExpr expr block c).run input = .ok (a, rest) →
        ∃ d : ItemTree T E B, t :: input = d.tokens ++ rest ∧ a = d.value := by
    intro t c input rest a hc ha
    cases itemStart?_eq_some hc
    exact itemFrom_sound hT hE hB ha
  obtain ⟨ds, hds, rfl, hend⟩ := run_collecting_sound hstep hrun
  exact ⟨ds, hds, by simp, fun t ht => itemStart?_eq_none.mp (hend t ht)⟩

theorem run_items (ds : List (ItemTree T E B)) {t : Token}
    (ht : t.kind = .rightBrace ∨ t.kind = .keyword .returnWord) (rest : List Token) :
    run (extend itemStart? (collect (itemFrom typeExpr expr block)) [])
        (ds.flatMap ItemTree.tokens ++ t :: rest) =
      .ok ((ds.map ItemTree.value).reverse ++ [], t :: rest) := by
  have hnext : ∀ (d : ItemTree T E B) (rest : List Token), Ends itemContinues (d.tokens ++ rest) :=
    ItemTree.begins.ends fun _ => itemContinues_of_starts
  have hends : Ends itemContinues (t :: rest) := by
    rw [ends_cons]
    rcases ht with ht | ht <;> rw [ht] <;> rfl
  refine run_collecting_complete itemContinues (itemFrom_complete hT hE hB) hnext ds [] hends ?_
  rintro u ⟨⟩
  exact itemStart?_eq_none.mpr ht

theorem blockIn_sound {opening : Token} (ho : opening.kind = .leftBrace)
    {input rest : List Token} {b : Block}
    (hrun : (blockIn typeExpr expr block opening).run input = .ok (b, rest)) :
    ∃ d : BlockTree T E B, opening :: input = d.tokens ++ rest ∧ b = d.value := by
  unfold blockIn at hrun
  obtain ⟨values, middle, hitems, hend⟩ := run_bind_eq_ok.mp hrun
  obtain ⟨items, rfl, hvalues, hstop⟩ := items_sound hT hE hB hitems
  obtain ⟨t, after, hany, hresult⟩ := run_bind_eq_ok.mp hend
  cases run_any_eq_ok.mp hany
  split_ifs at hresult with hreturn
  · simp only [run_bind_eq_ok, run_take_eq_ok] at hresult
    obtain ⟨e, _, hexpr, closing, _, ⟨rfl, hclosing⟩, hpure⟩ := hresult
    obtain ⟨result, rfl, rfl⟩ := hE.sound hexpr
    cases hpure
    refine ⟨⟨⟨opening, ho⟩, items, some (⟨t, hreturn⟩, result), ⟨closing, hclosing⟩⟩, ?_, ?_⟩
    · simp [BlockTree.tokens, BlockTree.innerTokens]
    · rw [hvalues]
      rfl
  · have hclosing : t.kind = .rightBrace := (hstop t rfl).resolve_right hreturn
    cases hresult
    refine ⟨⟨⟨opening, ho⟩, items, none, ⟨t, hclosing⟩⟩, ?_, ?_⟩
    · simp [BlockTree.tokens, BlockTree.innerTokens]
    · rw [hvalues]
      rfl

theorem run_blockIn (d : BlockTree T E B) (rest : List Token) :
    (blockIn typeExpr expr block d.opening.val).run (d.innerTokens ++ rest) =
      .ok (d.value, rest) := by
  obtain ⟨opening, items, result, closing⟩ := d
  unfold blockIn BlockTree.innerTokens BlockTree.value
  rw [List.append_assoc]
  cases result with
  | none =>
    have hitems := run_items hT hE hB items (.inl closing.property) rest
    refine (run_bind_of_ok hitems).trans ?_
    rw [run_any_bind, if_neg (by simp [closing.property])]
    simp
  | some result =>
    obtain ⟨start, result⟩ := result
    have hitems := run_items hT hE hB items (.inr start.property)
      (E.tokens result ++ [closing.val] ++ rest)
    have hends : Ends exprContinues (closing.val :: rest) := by
      rw [ends_cons, closing.property]
      rfl
    refine (run_bind_of_ok hitems).trans ?_
    rw [run_any_bind, if_pos start.property, List.append_assoc, List.singleton_append,
      run_bind_of_ok (hE.complete result hends), run_take_bind]
    simp

end

/-- The parser of blocks reads the blocks of as many levels as it has room for. -/
theorem block_reads (n : Nat) : ReadsBlock (Parser.block n) (blockPhrase n) := by
  induction n with
  | zero => exact ⟨nofun, nofun⟩
  | succ n ih =>
    refine ⟨blockIn_sound (typeExpr_reads n) (expr_reads n) ih, ?_⟩
    intro d rest
    exact ⟨d.opening, d.innerTokens, rfl, run_blockIn (typeExpr_reads n) (expr_reads n) ih d rest⟩

section
variable {n : Nat}

theorem declarationStep_sound {t c : Token} {input rest : List Token} {a : Declaration}
    (hc : some t = some c)
    (ha : (declarationFrom (Parser.typeExpr n) (Parser.block n) c).run input = .ok (a, rest)) :
    ∃ d : DeclarationTree (typePhrase n) (blockPhrase n),
      t :: input = d.tokens ++ rest ∧ a = d.value := by
  cases hc
  exact declarationFrom_sound (typeExpr_reads n) (block_reads n) ha

theorem declarationStep_complete (d : DeclarationTree (typePhrase n) (blockPhrase n))
    {rest : List Token}
    (hends : ∀ definition plain, d = .typeName definition plain → Ends typeContinues rest) :
    ∃ t ts c, d.tokens = t :: ts ∧ some t = some c ∧
      (declarationFrom (Parser.typeExpr n) (Parser.block n) c).run (ts ++ rest) =
        .ok (d.value, rest) := by
  obtain ⟨t, ts, ht, hrun⟩ := declarationFrom_complete (typeExpr_reads n) (block_reads n) d hends
  exact ⟨t, ts, t, ht, rfl, hrun⟩

theorem typeContinues_of_declarationStarts {k : Kind} (h : declarationStarts k = true) :
    typeContinues k = false := by
  rcases declarationStarts_iff.mp h with rfl | rfl <;> rfl

theorem run_declarations_eq_ok {input : List Token} {values : List Declaration}
    {rest : List Token} :
    (declarations n).run input = .ok (values, rest) ↔
      ∃ ds : List (DeclarationTree (typePhrase n) (blockPhrase n)),
        input = ds.flatMap DeclarationTree.tokens ∧ rest = [] ∧
          values = ds.map DeclarationTree.value := by
  constructor
  · intro hrun
    obtain ⟨reversed, after, hloop, hpure⟩ := run_bind_eq_ok.mp hrun
    cases hpure
    obtain ⟨ds, rfl, rfl, hend⟩ := run_collecting_sound declarationStep_sound hloop
    cases after with
    | nil => exact ⟨ds, by simp⟩
    | cons t after => cases hend t rfl
  · rintro ⟨ds, rfl, rfl, rfl⟩
    have hnext : ∀ (d : DeclarationTree (typePhrase n) (blockPhrase n)) (rest : List Token),
        Ends typeContinues (d.tokens ++ rest) :=
      DeclarationTree.begins.ends fun _ => typeContinues_of_declarationStarts
    have hloop := run_collecting_complete typeContinues
      (fun d _ hends => declarationStep_complete d fun _ _ _ => hends) hnext ds []
      (ends_nil typeContinues) (by simp)
    rw [List.append_nil] at hloop
    refine (run_bind_of_ok hloop).trans ?_
    simp

end

theorem ofTokens_eq_run (file : Nat) (tokens : List Token) :
    Program.ofTokens file tokens =
      match (declarations nestingLimit).run (Token.body tokens) with
      | .error e => .error (.ofFailure (Token.finishSpan file tokens) e)
      | .ok (values, _) => .ok ⟨values, ⟨file, 0, Token.lastStop (Token.body tokens)⟩⟩ := by
  unfold Program.ofTokens run
  dsimp only
  generalize declarations nestingLimit (Token.body tokens) = r
  cases r <;> rfl

theorem ofTokens_eq_ok {file : Nat} {tokens : List Token} {p : Program} :
    Program.ofTokens file tokens = .ok p ↔
      ∃ d : ProgramTree, d.tokens = Token.body tokens ∧ d.value file = p := by
  rw [ofTokens_eq_run]
  constructor
  · intro hok
    cases hrun : (declarations nestingLimit).run (Token.body tokens) with
    | error e =>
      rw [hrun] at hok
      cases hok
    | ok r =>
      obtain ⟨values, rest⟩ := r
      obtain ⟨ds, hds, -, rfl⟩ := run_declarations_eq_ok.mp hrun
      rw [hrun, hds] at hok
      exact ⟨⟨ds⟩, hds.symm, Except.ok.inj hok⟩
  · rintro ⟨d, hd, rfl⟩
    have hrun : (declarations nestingLimit).run (Token.body tokens) =
        .ok (d.declarations.map DeclarationTree.value, []) :=
      run_declarations_eq_ok.mpr ⟨d.declarations, hd.symm, rfl, rfl⟩
    rw [hrun, ← hd]
    rfl

end Scriptwright.Grammar
