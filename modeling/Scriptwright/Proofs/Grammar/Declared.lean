import Scriptwright.Proofs.Compile.Erasure
import Scriptwright.Proofs.Grammar.Kinds

/-!
# The declarations of a program in the order of their tokens

A program is read from left to right, and each declaration, at the top or in a block, begins
with a word that stands nowhere else. So the tokens of a program can be passed one by one:
a token that begins no declaration is left behind, a definition is passed as a whole, and
behind the first word of a function come the declarations in its body.

On the way it is kept what the parser does at each definition. If it fails from there on,
then the parser of the whole program fails in the same way.
-/

namespace Scriptwright

mutual

/-- A declaration and those inside it, in the order in which they begin. -/
def Declaration.declared : Declaration → List Declaration
  | .function name parameters result body span =>
    .function name parameters result body span :: body.declared
  | .typeName name definition span => [.typeName name definition span]

def Block.declared : Block → List Declaration
  | .mk items _ _ => Item.listDeclared items

def Item.listDeclared : List Item → List Declaration
  | [] => []
  | .declaration d :: items => d.declared ++ Item.listDeclared items
  | .statement s :: items => s.declared ++ Item.listDeclared items

def Statement.declared : Statement → List Declaration
  | .assign _ _ => []
  | .branch _ thenBlock none _ => thenBlock.declared
  | .branch _ thenBlock (some elseBlock) _ => thenBlock.declared ++ elseBlock.declared
  | .whileLoop _ body _ => body.declared
  | .forLoop _ _ _ body _ => body.declared

end

def Item.declared : Item → List Declaration
  | .declaration d => d.declared
  | .statement s => s.declared

theorem Item.listDeclared_eq_flatMap (items : List Item) :
    listDeclared items = items.flatMap declared := by
  induction items with
  | nil => rfl
  | cons item items ih => cases item <;> rw [listDeclared, ih, List.flatMap_cons, declared]

/-- All declarations of a program, at the top and inside others. -/
def Program.declared (p : Program) : List Declaration :=
  p.declarations.flatMap Declaration.declared

namespace Grammar
open Scriptwright.Parser

section
variable {α β γ : Type} {P : Parser β} {before : List Token}

/-- The parser `P` goes on with `p` behind the tokens `before`: where `p` fails, `P` does. -/
def Exposed (P : Parser β) (before : List Token) (p : Parser α) : Prop :=
  ∀ ⦃input : List Token⦄ ⦃failure : Failure⦄, p.run input = .error failure →
    P.run (before ++ input) = .error failure

theorem Exposed.enter {p : Parser α} {q : Parser γ} (h : Exposed P before p) {ts : List Token}
    (hq : Exposed p ts q) : Exposed P (before ++ ts) q := by
  intro input failure hfail
  rw [List.append_assoc]
  exact h (hq hfail)

theorem Exposed.of_bind {p : Parser α} {f : α → Parser γ} (h : Exposed P before (p >>= f)) :
    Exposed P before p := by
  intro input failure hfail
  exact h (run_bind_of_error hfail)

end

section
variable {T : Phrase TypeExpr} {E : Phrase Expr} {B : Phrase Block}
variable {typeExpr : Parser TypeExpr} {expr : Parser Expr} {block : Token → Parser Block}

theorem exposed_function {signature : Option Signature} (d : FunctionTree B)
    (hname : ∀ s ∈ signature, s.name = d.name.val.lexeme) (opening : Terminal .leftBrace) :
    Exposed (functionFrom block signature d.start.val) (d.heading.tail ++ [opening.val])
      (block opening.val) := by
  intro input failure hfail
  have hparameters : (commaList .rightBrace (parameter signature)).run _ = _ :=
    commaList_complete (parameter_reads signature) begins_parameter rfl rfl rfl (by decide)
      d.parameters d.closing.property (opening.val :: input)
  unfold functionFrom FunctionTree.heading
  simp only [List.tail_cons, List.cons_append, List.append_assoc, List.nil_append]
  rw [run_take_bind, run_take_bind, run_bind_of_ok (run_checkName_eq_ok (u := ()).mpr ⟨rfl, hname⟩),
    run_take_bind, run_bind_of_ok hparameters, run_take_bind, run_take_bind]
  exact run_bind_of_error hfail

theorem exposed_signed (hT : ReadsPhrase typeExpr T typeContinues) (definition : DefinitionTree T)
    {parameters : Interface} {result : TypeExpr}
    (h : functionType? (T.value definition.type) = some (parameters, result))
    (func : Terminal (.keyword .funcWord)) :
    Exposed (typeFrom typeExpr block definition.start.val)
      (definition.tokens.tail ++ [func.val])
      (functionFrom block
        (some ⟨definition.name.val.lexeme, parameters, result, definition.span⟩) func.val) := by
  intro input failure hfail
  obtain ⟨span, hvalue⟩ := functionType?_eq_some.mp h
  have hends : Ends typeContinues (func.val :: input) := by
    rw [ends_cons, func.property]
    rfl
  have hnext : (func.val :: input).head?.any (·.kind = .keyword .funcWord) = true := by
    simp [func.property]
  have hspan : definition.span = definition.start.val.span.cover span := by
    unfold DefinitionTree.span
    rw [hvalue]
    rfl
  unfold typeFrom DefinitionTree.tokens
  simp only [List.tail_cons, List.cons_append, List.append_assoc, List.nil_append]
  rw [run_take_bind, run_take_bind, run_bind_of_ok (hT.complete definition.type hends)]
  simp only [hvalue]
  rw [run_bind_of_ok (run_nextIs _ _), if_pos hnext, run_any_bind]
  rw [hspan] at hfail
  exact hfail

theorem exposed_then (start : Token) (condition : ConditionTree) (opening : Terminal .leftBrace) :
    Exposed (branchFrom block start) (condition.tokens ++ [opening.val]) (block opening.val) := by
  intro input failure hfail
  unfold branchFrom
  rw [List.append_assoc, List.singleton_append, run_bind_of_ok (run_condition condition _),
    run_take_bind]
  exact run_bind_of_error hfail

theorem exposed_else (hB : ReadsBlock block B) (start : Token) (condition : ConditionTree)
    (thenBlock : B.Tree) (otherwise : Terminal (.keyword .elseWord))
    (opening : Terminal .leftBrace) :
    Exposed (branchFrom block start)
      (condition.tokens ++ (B.tokens thenBlock ++ [otherwise.val, opening.val]))
      (block opening.val) := by
  intro input failure hfail
  obtain ⟨first, ts, hts, hthen⟩ := hB.complete thenBlock (otherwise.val :: opening.val :: input)
  unfold branchFrom
  simp only [List.append_assoc, List.cons_append, List.nil_append]
  rw [run_bind_of_ok (run_condition condition _), hts, List.cons_append, run_take_bind,
    run_bind_of_ok hthen, run_bind_of_ok (run_accept_of_kind otherwise.property _), if_pos rfl,
    run_take_bind]
  exact run_bind_of_error hfail

section
variable (hE : ReadsPhrase expr E exprContinues)
include hE

theorem exposed_while (start : Token) (condition : E.Tree) (opening : Terminal .leftBrace) :
    Exposed (whileFrom expr block start) (E.tokens condition ++ [opening.val])
      (block opening.val) := by
  intro input failure hfail
  have hends : Ends exprContinues (opening.val :: input) := by
    rw [ends_cons, opening.property]
    rfl
  unfold whileFrom
  rw [List.append_assoc, List.singleton_append, run_bind_of_ok (hE.complete condition hends),
    run_take_bind]
  exact run_bind_of_error hfail

theorem exposed_for (start : Token) (initializer : AssignmentTree E)
    (first : Terminal .semicolon) (condition : E.Tree) (second : Terminal .semicolon)
    (increment : AssignmentTree E) (opening : Terminal .leftBrace) :
    Exposed (forFrom expr block start) (initializer.tokens ++ first.val :: (E.tokens condition ++
      second.val :: increment.tokens) ++ [opening.val]) (block opening.val) := by
  intro input failure hfail
  have hbrace : Ends exprContinues (opening.val :: input) := by
    rw [ends_cons, opening.property]
    rfl
  have hsemicolon : ∀ (t : Terminal .semicolon) (later : List Token),
      Ends exprContinues (t.val :: later) := by
    intro t later
    rw [ends_cons, t.property]
    rfl
  unfold forFrom
  simp only [List.append_assoc, List.cons_append, List.nil_append]
  rw [run_bind_of_ok ((assignment_reads hE).complete initializer (hsemicolon first _)),
    run_take_bind, run_bind_of_ok (hE.complete condition (hsemicolon second _)), run_take_bind,
    run_bind_of_ok ((assignment_reads hE).complete increment hbrace), run_take_bind]
  exact run_bind_of_error hfail

theorem exposed_item (hT : ReadsPhrase typeExpr T typeContinues) (hB : ReadsBlock block B)
    (opening : Token) (done : List (ItemTree T E B)) {t : Token}
    (ht : itemStarts t.kind = true) :
    Exposed (blockIn typeExpr expr block opening) (done.flatMap ItemTree.tokens ++ [t])
      (itemFrom typeExpr expr block t) := by
  intro input failure hfail
  have hnext : ∀ (d : ItemTree T E B) (rest : List Token), Ends itemContinues (d.tokens ++ rest) :=
    ItemTree.begins.ends fun _ => itemContinues_of_starts
  have hitems := run_collecting_of_error itemContinues (itemFrom_complete hT hE hB) hnext done []
    (itemContinues_of_starts ht) (itemStart?_of_starts ht) hfail
  unfold blockIn
  rw [List.append_assoc, List.singleton_append]
  exact run_bind_of_error hitems

end

end

theorem exposed_declaration {n : Nat}
    (done : List (DeclarationTree (typePhrase n) (blockPhrase n))) {t : Token}
    (ht : declarationStarts t.kind = true) :
    Exposed (declarations n) (done.flatMap DeclarationTree.tokens ++ [t])
      (declarationFrom (Parser.typeExpr n) (Parser.block n) t) := by
  intro input failure hfail
  have hnext : ∀ (d : DeclarationTree (typePhrase n) (blockPhrase n)) (rest : List Token),
      Ends typeContinues (d.tokens ++ rest) :=
    DeclarationTree.begins.ends fun _ => typeContinues_of_declarationStarts
  have hloop := run_collecting_of_error typeContinues
    (fun d _ hends => declarationStep_complete d fun _ _ _ => hends) hnext done []
    (typeContinues_of_declarationStarts ht) rfl hfail
  rw [List.append_assoc, List.singleton_append]
  exact run_bind_of_error hloop

/-- Behind the tokens `before` of a text that `P` reads, these tokens hold these declarations. -/
inductive Declares {β : Type} (P : Parser β) :
    List Token → List Token → List Declaration → Prop
  | nil {before : List Token} : Declares P before [] []
  | quiet {before ts : List Token} {ds : List Declaration} {t : Token}
      (ht : Grammar.quiet t.kind = true) (hts : Declares P (before ++ [t]) ts ds) :
      Declares P before (t :: ts) ds
  | typeName {n : Nat} {before ts : List Token} {ds : List Declaration}
      (d : DefinitionTree (typePhrase n))
      (plain : functionType? ((typePhrase n).value d.type) = none)
      (hexposed : Exposed P (before ++ [d.start.val])
        (typeFrom (Parser.typeExpr n) (Parser.block n) d.start.val))
      (hends : Ends typeContinues ts) (hts : Declares P (before ++ d.tokens) ts ds) :
      Declares P before (d.tokens ++ ts)
        (.typeName d.name.val.lexeme ((typePhrase n).value d.type) d.span :: ds)
  | function {n : Nat} {before ts : List Token} {ds : List Declaration}
      (d : FunctionTree (blockPhrase n))
      (hts : Declares P (before ++ [d.start.val]) (d.tokens.tail ++ ts) ds) :
      Declares P before (d.tokens ++ ts) (d.value none :: ds)
  | signed {n : Nat} {before ts : List Token} {ds : List Declaration}
      (definition : DefinitionTree (typePhrase n)) {parameters : Interface} {result : TypeExpr}
      (signature : functionType? ((typePhrase n).value definition.type) =
        some (parameters, result))
      (d : FunctionTree (blockPhrase n)) (sameName : definition.name.val.lexeme = d.name.val.lexeme)
      (hexposed : Exposed P (before ++ [definition.start.val])
        (typeFrom (Parser.typeExpr n) (Parser.block n) definition.start.val))
      (hts : Declares P (before ++ definition.tokens ++ [d.start.val]) (d.tokens.tail ++ ts) ds) :
      Declares P before (definition.tokens ++ (d.tokens ++ ts))
        (d.value (some (parameters, result)) :: ds)

section
variable {β : Type} {P : Parser β} {before ts : List Token} {ds : List Declaration}

theorem Declares.quiet_append {us : List Token} (hus : Spelled Grammar.quiet us)
    (hts : Declares P (before ++ us) ts ds) : Declares P before (us ++ ts) ds := by
  induction us generalizing before with
  | nil =>
    rw [List.append_nil] at hts
    exact hts
  | cons u us ih =>
    obtain ⟨hu, hus⟩ := spelled_cons.mp hus
    apply Declares.quiet hu
    apply ih hus
    rw [List.append_assoc]
    exact hts

/-- Trees one behind the other, if each of them can be passed behind the ones before it. -/
theorem Declares.flatMap {δ : Type} {tokens : δ → List Token} {declared : δ → List Declaration}
    (continues : Kind → Bool)
    (hone : ∀ (done : List δ) (d : δ) {ts : List Token} {ds : List Declaration},
      Ends continues ts → Declares P (before ++ done.flatMap tokens ++ tokens d) ts ds →
        Declares P (before ++ done.flatMap tokens) (tokens d ++ ts) (declared d ++ ds))
    (hnext : ∀ (d : δ) (rest : List Token), Ends continues (tokens d ++ rest))
    (done todo : List δ) (hends : Ends continues ts)
    (hts : Declares P (before ++ done.flatMap tokens ++ todo.flatMap tokens) ts ds) :
    Declares P (before ++ done.flatMap tokens) (todo.flatMap tokens ++ ts)
      (todo.flatMap declared ++ ds) := by
  induction todo generalizing done with
  | nil =>
    rw [List.flatMap_nil, List.append_nil] at hts
    exact hts
  | cons d todo ih =>
    rw [List.flatMap_cons, List.append_assoc, List.flatMap_cons, List.append_assoc]
    apply hone done d (ends_flatMap hnext todo hends)
    have hdone : before ++ (done ++ [d]).flatMap tokens =
        before ++ done.flatMap tokens ++ tokens d := by
      simp [List.append_assoc]
    rw [← hdone]
    apply ih
    rw [hdone, List.append_assoc, ← List.flatMap_cons]
    exact hts

/-- Blocks with `n` levels can be passed, wherever a block is read. -/
def BlockDeclares (P : Parser β) (n : Nat) : Prop :=
  ∀ (d : (blockPhrase n).Tree) {before ts : List Token} {ds : List Declaration},
    (∀ opening : Terminal .leftBrace,
      Exposed P (before ++ [opening.val]) (Parser.block n opening.val)) →
    Declares P (before ++ (blockPhrase n).tokens d) ts ds →
    Declares P before ((blockPhrase n).tokens d ++ ts) (((blockPhrase n).value d).declared ++ ds)

end

theorem FunctionTree.quiet_heading {B : Phrase Block} (d : FunctionTree B) :
    Spelled quiet d.heading.tail := by
  simp only [FunctionTree.heading, List.tail_cons, spelled_cons, spelled_append]
  exact ⟨d.name.spelled rfl, d.equal.spelled rfl, d.opening.spelled rfl,
    parameters_quiet d.parameters, d.closing.spelled rfl, spelled_nil⟩

theorem BlockTree.ending_quiet {n : Nat}
    (d : BlockTree (typePhrase n) (exprPhrase n) (blockPhrase n)) :
    Spelled quiet d.ending ∧ ∀ ts, Ends itemContinues (d.ending ++ ts) := by
  obtain ⟨opening, items, result, closing⟩ := d
  cases result with
  | none =>
    constructor
    · exact spelled_cons.mpr ⟨closing.spelled rfl, spelled_nil⟩
    · intro ts
      rw [BlockTree.ending, List.cons_append, ends_cons, closing.property]
      rfl
  | some result =>
    constructor
    · simp only [BlockTree.ending, spelled_cons, spelled_append]
      exact ⟨result.1.spelled rfl, exprPhrase_quiet result.2, closing.spelled rfl, spelled_nil⟩
    · intro ts
      rw [BlockTree.ending, List.cons_append, ends_cons, result.1.property]
      rfl

section
variable {β : Type} {P : Parser β} {n : Nat} (hB : BlockDeclares P n)
variable {before ts : List Token} {ds : List Declaration}
include hB

/-- A block behind tokens that begin no declaration, where `p` reads them and the block. -/
theorem BlockDeclares.behind {α : Type} (d : (blockPhrase n).Tree) {p : Parser α}
    (hp : Exposed P before p) {lead : List Token} (hlead : Spelled quiet lead)
    (hblock : ∀ opening : Terminal .leftBrace,
      Exposed p (lead ++ [opening.val]) (Parser.block n opening.val))
    (hts : Declares P (before ++ (lead ++ (blockPhrase n).tokens d)) ts ds) :
    Declares P before (lead ++ ((blockPhrase n).tokens d ++ ts))
      (((blockPhrase n).value d).declared ++ ds) := by
  rw [← List.append_assoc] at hts
  apply Declares.quiet_append hlead
  apply hB d _ hts
  intro opening
  rw [List.append_assoc]
  exact hp.enter (hblock opening)

theorem FunctionTree.declares (d : FunctionTree (blockPhrase n)) {signature : Option Signature}
    (hname : ∀ s ∈ signature, s.name = d.name.val.lexeme)
    (hexposed : Exposed P (before ++ [d.start.val])
      (functionFrom (Parser.block n) signature d.start.val))
    (hts : Declares P (before ++ d.tokens) ts ds) :
    Declares P (before ++ [d.start.val]) (d.tokens.tail ++ ts)
      (((blockPhrase n).value d.body).declared ++ ds) := by
  have htokens : d.tokens = d.start.val :: (d.heading.tail ++ (blockPhrase n).tokens d.body) := by
    simp [FunctionTree.tokens, FunctionTree.heading]
  rw [htokens, List.append_cons] at hts
  rw [htokens, List.tail_cons, List.append_assoc]
  exact hB.behind d.body hexposed d.quiet_heading (exposed_function d hname) hts

theorem DeclarationTree.declares (d : DeclarationTree (typePhrase n) (blockPhrase n))
    (hexposed : ∀ t, declarationStarts t.kind = true → Exposed P (before ++ [t])
      (declarationFrom (Parser.typeExpr n) (Parser.block n) t))
    (hends : Ends typeContinues ts) (hts : Declares P (before ++ d.tokens) ts ds) :
    Declares P before (d.tokens ++ ts) (d.value.declared ++ ds) := by
  cases d with
  | function d =>
    have hfunction : Exposed P (before ++ [d.start.val])
        (functionFrom (Parser.block n) none d.start.val) := by
      have h := hexposed d.start.val (d.start.spelled rfl)
      simp only [declarationFrom, d.start.property] at h
      exact h
    apply Declares.function d
    apply d.declares hB _ hfunction hts
    intro s hs
    cases hs
  | typeName definition plain =>
    have htype := hexposed definition.start.val (definition.start.spelled rfl)
    simp only [declarationFrom, definition.start.property] at htype
    exact Declares.typeName definition plain htype hends hts
  | signed definition parameters result signature d sameName =>
    have htype := hexposed definition.start.val (definition.start.spelled rfl)
    simp only [declarationFrom, definition.start.property] at htype
    have hfunction := htype.enter
      (exposed_signed (typeExpr_reads n) definition signature d.start)
    have hbefore : before ++ [definition.start.val] ++
        (definition.tokens.tail ++ [d.start.val]) =
          before ++ definition.tokens ++ [d.start.val] := by
      simp [DefinitionTree.tokens]
    rw [hbefore] at hfunction
    rw [DeclarationTree.tokens, ← List.append_assoc] at hts
    rw [DeclarationTree.tokens, List.append_assoc]
    apply Declares.signed definition signature d sameName htype
    apply d.declares hB _ hfunction hts
    intro s hs
    cases hs
    exact sameName

theorem StatementTree.declares (d : StatementTree (exprPhrase n) (blockPhrase n))
    (hexposed : ∀ t, itemStarts t.kind = true → quiet t.kind = true →
      Exposed P (before ++ [t]) (statementFrom (Parser.expr n) (Parser.block n) t))
    (hts : Declares P (before ++ d.tokens) ts ds) :
    Declares P before (d.tokens ++ ts) (d.value.declared ++ ds) := by
  cases d with
  | assign assignment => exact Declares.quiet_append assignment.quiet hts
  | branch start condition thenBlock =>
    have hbranch := hexposed start.val (start.spelled rfl) (start.spelled rfl)
    simp only [statementFrom, start.property] at hbranch
    rw [StatementTree.tokens, List.append_cons] at hts
    rw [StatementTree.tokens, List.cons_append, List.append_assoc]
    apply Declares.quiet (start.spelled rfl)
    exact hB.behind thenBlock hbranch condition.quiet (exposed_then start.val condition) hts
  | branchElse start condition thenBlock otherwise elseBlock =>
    have hbranch := hexposed start.val (start.spelled rfl) (start.spelled rfl)
    simp only [statementFrom, start.property] at hbranch
    have helse : Declares P (before ++ [start.val] ++
        (condition.tokens ++ (blockPhrase n).tokens thenBlock))
        (otherwise.val :: ((blockPhrase n).tokens elseBlock ++ ts))
        (((blockPhrase n).value elseBlock).declared ++ ds) := by
      apply Declares.quiet (otherwise.spelled rfl)
      apply hB elseBlock
      · intro opening
        have h := hbranch.enter
          (exposed_else (block_reads n) start.val condition thenBlock otherwise opening)
        simpa only [List.append_assoc, List.cons_append, List.nil_append] using h
      · simpa only [StatementTree.tokens, List.append_assoc, List.cons_append, List.nil_append]
          using hts
    have hthen := hB.behind thenBlock hbranch condition.quiet (exposed_then start.val condition)
      helse
    have h := Declares.quiet (start.spelled rfl) hthen
    simpa only [StatementTree.tokens, StatementTree.value, Statement.declared, List.append_assoc,
      List.cons_append] using h
  | whileLoop start condition body =>
    have hwhile := hexposed start.val (start.spelled rfl) (start.spelled rfl)
    simp only [statementFrom, start.property] at hwhile
    rw [StatementTree.tokens, List.append_cons] at hts
    rw [StatementTree.tokens, List.cons_append, List.append_assoc]
    apply Declares.quiet (start.spelled rfl)
    exact hB.behind body hwhile (exprPhrase_quiet condition)
      (exposed_while (expr_reads n) start.val condition) hts
  | forLoop start initializer first condition second increment body =>
    have hfor := hexposed start.val (start.spelled rfl) (start.spelled rfl)
    simp only [statementFrom, start.property] at hfor
    have hlead : Spelled quiet (initializer.tokens ++ first.val ::
        ((exprPhrase n).tokens condition ++ second.val :: increment.tokens)) := by
      simp only [spelled_cons, spelled_append]
      exact ⟨initializer.quiet, first.spelled rfl, exprPhrase_quiet condition,
        second.spelled rfl, increment.quiet⟩
    have hafter : Declares P (before ++ [start.val] ++ (initializer.tokens ++ first.val ::
        ((exprPhrase n).tokens condition ++ second.val :: increment.tokens) ++
          (blockPhrase n).tokens body)) ts ds := by
      simpa only [StatementTree.tokens, List.append_assoc, List.cons_append, List.nil_append]
        using hts
    have hbody := hB.behind body hfor hlead (exposed_for (expr_reads n) start.val initializer first
      condition second increment) hafter
    have h := Declares.quiet (start.spelled rfl) hbody
    simpa only [StatementTree.tokens, StatementTree.value, Statement.declared, List.append_assoc,
      List.cons_append] using h

theorem ItemTree.declares (d : ItemTree (typePhrase n) (exprPhrase n) (blockPhrase n))
    (hexposed : ∀ t, itemStarts t.kind = true → Exposed P (before ++ [t])
      (itemFrom (Parser.typeExpr n) (Parser.expr n) (Parser.block n) t))
    (hends : Ends typeContinues ts) (hts : Declares P (before ++ d.tokens) ts ds) :
    Declares P before (d.tokens ++ ts) (d.value.declared ++ ds) := by
  cases d with
  | declaration d =>
    apply d.declares hB _ hends hts
    intro t ht
    have h := hexposed t (itemStarts_of_declaration ht)
    unfold itemFrom at h
    rw [if_pos (declarationStarts_iff.mp ht)] at h
    exact h.of_bind
  | statement d =>
    apply d.declares hB _ hts
    intro t ht hquiet
    have hne : ¬ (t.kind = .keyword .typeWord ∨ t.kind = .keyword .funcWord) := by
      rw [← declarationStarts_iff]
      simpa [quiet] using hquiet
    have h := hexposed t ht
    unfold itemFrom at h
    rw [if_neg hne] at h
    exact h.of_bind

theorem BlockTree.declares (d : BlockTree (typePhrase n) (exprPhrase n) (blockPhrase n))
    (hexposed : Exposed P (before ++ [d.opening.val])
      (blockIn (Parser.typeExpr n) (Parser.expr n) (Parser.block n) d.opening.val))
    (hts : Declares P (before ++ d.tokens) ts ds) :
    Declares P before (d.tokens ++ ts) (d.value.declared ++ ds) := by
  have htokens : d.tokens = d.opening.val :: (d.items.flatMap ItemTree.tokens ++ d.ending) := rfl
  have hdeclared : d.value.declared = d.items.flatMap fun item => item.value.declared := by
    rw [BlockTree.value, Block.declared, Item.listDeclared_eq_flatMap, List.flatMap_map]
  have hone : ∀ (done : List (ItemTree (typePhrase n) (exprPhrase n) (blockPhrase n)))
      (item : ItemTree (typePhrase n) (exprPhrase n) (blockPhrase n)) {ts : List Token}
      {ds : List Declaration}, Ends itemContinues ts →
      Declares P (before ++ [d.opening.val] ++ done.flatMap ItemTree.tokens ++ item.tokens) ts ds →
      Declares P (before ++ [d.opening.val] ++ done.flatMap ItemTree.tokens) (item.tokens ++ ts)
        (item.value.declared ++ ds) := by
    intro done item ts ds hends hts
    apply item.declares hB _ (hends.mono fun k hk => (Bool.or_eq_false_iff.mp hk).2) hts
    intro t ht
    rw [List.append_assoc]
    exact hexposed.enter
      (exposed_item (expr_reads n) (typeExpr_reads n) (block_reads n) d.opening.val done ht)
  have hending : Declares P (before ++ [d.opening.val] ++ d.items.flatMap ItemTree.tokens)
      (d.ending ++ ts) ds := by
    apply Declares.quiet_append d.ending_quiet.1
    rw [htokens, List.append_cons, ← List.append_assoc] at hts
    exact hts
  have hitems := Declares.flatMap itemContinues hone
    (ItemTree.begins.ends fun _ => itemContinues_of_starts) [] d.items (d.ending_quiet.2 ts)
    (by rw [List.flatMap_nil, List.append_nil]; exact hending)
  rw [List.flatMap_nil, List.append_nil] at hitems
  rw [htokens, hdeclared, List.cons_append, List.append_assoc]
  exact Declares.quiet (d.opening.spelled rfl) hitems

end

theorem blockDeclares {β : Type} (P : Parser β) (n : Nat) : BlockDeclares P n := by
  induction n with
  | zero =>
    intro d
    exact d.elim
  | succ n ih =>
    intro d before ts ds hexposed hts
    exact BlockTree.declares ih d (hexposed d.opening) hts

/-- The tokens of a program hold its declarations. -/
theorem ProgramTree.declares (d : ProgramTree) (file : Nat) :
    Declares (Parser.declarations nestingLimit) [] d.tokens (d.value file).declared := by
  have hone : ∀ (done : List (DeclarationTree (typePhrase nestingLimit) (blockPhrase nestingLimit)))
      (d : DeclarationTree (typePhrase nestingLimit) (blockPhrase nestingLimit)) {ts : List Token}
      {ds : List Declaration}, Ends typeContinues ts →
      Declares (Parser.declarations nestingLimit)
        ([] ++ done.flatMap DeclarationTree.tokens ++ d.tokens) ts ds →
      Declares (Parser.declarations nestingLimit) ([] ++ done.flatMap DeclarationTree.tokens)
        (d.tokens ++ ts) (d.value.declared ++ ds) := by
    intro done d ts ds hends hts
    apply d.declares (blockDeclares _ nestingLimit) _ hends hts
    intro t ht
    exact exposed_declaration done ht
  have hall := Declares.flatMap typeContinues hone
    (DeclarationTree.begins.ends fun _ => typeContinues_of_declarationStarts) [] d.declarations
    (ends_nil typeContinues) Declares.nil
  rw [List.append_nil, List.append_nil] at hall
  rw [ProgramTree.value, Program.declared, List.flatMap_map]
  exact hall

end Grammar

end Scriptwright
