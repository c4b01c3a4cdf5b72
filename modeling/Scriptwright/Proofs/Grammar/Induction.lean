import Scriptwright.Proofs.Grammar.Program

/-!
# Induction on derivations

A derivation has levels, groups, trailers and chains, but the expression that it stands for
knows little of them. What holds of names and literals as soon as their tokens are good, and
passes from the parts of a node to the node, holds of every expression that is derived from
good tokens.

For statements, declarations and blocks the rules are gone through once. A relation between
tokens and nodes that every production passes on holds of all derivations, and a property that
passes from good tokens to nodes is such a relation.
-/

namespace Scriptwright.Grammar

/-- Trees of good tokens stand for values with the property. -/
def Phrase.Carries {α : Type} (P : Phrase α) (good : Token → Prop) (holds : α → Prop) : Prop :=
  ∀ d : P.Tree, (∀ t ∈ P.tokens d, good t) → holds (P.value d)

/-- A property of expressions that good tokens begin and that every rule passes on. -/
structure Inherited (good : Token → Prop) (holds : Expr → Prop) : Prop where
  term {t : Token} {e : Expr} (ht : good t) (h : term? t = some e) : holds e
  template {t : Token} (ht : good t) (span : Span) :
    holds (.template (t.segments.map Segment.part) span)
  withSpan {e : Expr} (h : holds e) (span : Span) : holds (e.withSpan span)
  binary {left right : Expr} (hleft : holds left) (hright : holds right) (op : BinaryOp)
    (span : Span) : holds (.binary left op right span)
  unary {argument : Expr} (h : holds argument) (op : UnaryOp) (span : Span) :
    holds (.unary op argument span)
  call {callee : Expr} {arguments : List Expr} (hcallee : holds callee)
    (harguments : ∀ e ∈ arguments, holds e) (span : Span) : holds (.call callee arguments span)
  index {base property : Expr} (hbase : holds base) (hproperty : holds property) (span : Span) :
    holds (.member base property true span)
  access {base : Expr} {name : Terminal .identifier} (hbase : holds base) (hname : good name.val)
    (span : Span) : holds (.member base (.identifier name.val.lexeme name.val.span) false span)
  array {elements : List Expr} (h : ∀ e ∈ elements, holds e) (span : Span) :
    holds (.array elements span)
  object {fields : List (String × Expr)} (hnames : ∀ field ∈ fields,
      ∃ name : Terminal .identifier, good name.val ∧ name.val.lexeme = field.1)
    (h : ∀ field ∈ fields, holds field.2) (span : Span) : holds (.object fields span)

/-- The name that a token spells. -/
def nameTree (name : Terminal .identifier) : TermTree :=
  ⟨name.val, .identifier name.val.lexeme name.val.span, by simp [term?, name.property]⟩

theorem CommaList.tokens_subset {α : Type} {tokens : α → List Token} {list : CommaList α}
    {item : α} (h : item ∈ list.items) : tokens item ⊆ list.tokens tokens := by
  intro t ht
  cases list with
  | none => cases h
  | some first more =>
    rcases List.mem_cons.mp h with rfl | h
    · exact List.mem_append_left _ ht
    · obtain ⟨link, hlink, rfl⟩ := List.mem_map.mp h
      exact List.mem_append_right _
        (List.mem_flatMap.mpr ⟨link, hlink, List.mem_cons_of_mem _ ht⟩)

section
variable {E : Phrase Expr} {O : Phrase Operand} {good : Token → Prop} {holds : Expr → Prop}
  (hinherited : Inherited good holds) (hE : E.Carries good holds)
  (hO : O.Carries good fun operand => holds operand.expr)
include hE

theorem CommaList.carries {items : CommaList E.Tree} (h : ∀ t ∈ items.tokens E.tokens, good t) :
    ∀ e ∈ items.items.map E.value, holds e := by
  intro e he
  obtain ⟨d, hd, rfl⟩ := List.mem_map.mp he
  exact hE d fun t ht => h t (CommaList.tokens_subset hd ht)

include hinherited

theorem FieldTree.carries {d : FieldTree E} (h : ∀ t ∈ d.tokens, good t) :
    (∃ name : Terminal .identifier, good name.val ∧ name.val.lexeme = d.value.1) ∧
      holds d.value.2 := by
  cases d with
  | named name colon value =>
    simp only [FieldTree.tokens, List.forall_mem_cons] at h
    exact ⟨⟨name, h.1, rfl⟩, hE value h.2.2⟩
  | shorthand name =>
    have hname := h name.val List.mem_cons_self
    exact ⟨⟨name, hname, rfl⟩, hinherited.term hname (nameTree name).denotes⟩

theorem ObjectTree.carries {d : ObjectTree E} (h : ∀ t ∈ d.tokens, good t) : holds d.value := by
  simp only [ObjectTree.tokens, List.forall_mem_cons, List.forall_mem_append] at h
  have hfields : ∀ field ∈ Record.merged (d.fields.items.map FieldTree.value),
      (∃ name : Terminal .identifier, good name.val ∧ name.val.lexeme = field.1) ∧
        holds field.2 := by
    intro field hmem
    obtain ⟨tree, htree, rfl⟩ := List.mem_map.mp (Record.merged_subset _ hmem)
    exact tree.carries hinherited hE fun t ht => h.2.1 t (CommaList.tokens_subset htree ht)
  exact hinherited.object (fun field hf => (hfields field hf).1)
    (fun field hf => (hfields field hf).2) _

theorem GroupTree.carries {d : GroupTree E} (h : ∀ t ∈ d.tokens, good t) : holds d.value := by
  simp only [GroupTree.tokens, List.forall_mem_cons, List.forall_mem_append] at h
  exact hinherited.withSpan (hE d.inner h.2.1) _

theorem HeadTree.carries {d : HeadTree E} (h : ∀ t ∈ d.tokens, good t) : holds d.value.expr := by
  cases d with
  | group d => exact d.carries hinherited hE h
  | object d => exact d.carries hinherited hE h
  | term d => exact hinherited.term (h d.token List.mem_cons_self) d.denotes

theorem TrailerTree.carries {d : TrailerTree E} (h : ∀ t ∈ d.tokens, good t) {operand : Operand}
    (hbase : holds operand.expr) : holds (d.apply operand).expr := by
  cases d with
  | call opening arguments closing =>
    simp only [TrailerTree.tokens, List.forall_mem_cons, List.forall_mem_append] at h
    exact hinherited.call hbase (CommaList.carries hE h.2.1) _
  | index opening inner closing =>
    simp only [TrailerTree.tokens, List.forall_mem_cons, List.forall_mem_append] at h
    exact hinherited.index hbase (hE inner h.2.1) _
  | member dot name =>
    simp only [TrailerTree.tokens, List.forall_mem_cons] at h
    exact hinherited.access hbase h.2.1 _

theorem foldl_apply_carries {trailers : List (TrailerTree E)}
    (h : ∀ t ∈ trailers.flatMap TrailerTree.tokens, good t) {operand : Operand}
    (hbase : holds operand.expr) : holds (trailers.foldl TrailerTree.apply operand).expr := by
  induction trailers generalizing operand with
  | nil => exact hbase
  | cons trailer trailers ih =>
    rw [List.flatMap_cons, List.forall_mem_append] at h
    exact ih h.2 (trailer.carries hinherited hE h.1 hbase)

theorem foldl_joinLink_carries {links : List (Sign BinaryOp.ofKind? × GroupTree E)}
    (h : ∀ t ∈ links.flatMap linkTokens, good t) {left : Expr} (hleft : holds left) :
    holds (links.foldl joinLink left) := by
  induction links generalizing left with
  | nil => exact hleft
  | cons link links ih =>
    rw [List.flatMap_cons, List.forall_mem_append] at h
    have hgroup := link.2.carries hinherited hE (List.forall_mem_cons.mp h.1).2
    exact ih h.2 (hinherited.binary hleft hgroup _ _)

include hO

theorem OperandTree.carries {d : OperandTree E O} (h : ∀ t ∈ d.tokens, good t) :
    holds d.value.expr := by
  cases d with
  | unary sign argument =>
    exact hinherited.unary (hO argument (List.forall_mem_cons.mp h).2) _ _
  | plain head trailers =>
    obtain ⟨hhead, htrailers⟩ := List.forall_mem_append.mp h
    exact foldl_apply_carries hinherited hE htrailers (head.carries hinherited hE hhead)

theorem ExprTree.carries {d : ExprTree E O} (h : ∀ t ∈ d.tokens, good t) : holds d.value := by
  cases d with
  | template token => exact hinherited.template (h token.val List.mem_cons_self) _
  | emptyArray brackets => exact hinherited.array (List.forall_mem_nil _) _
  | array opening elements closing =>
    simp only [ExprTree.tokens, List.forall_mem_cons, List.forall_mem_append] at h
    exact hinherited.array (CommaList.carries hE h.2.1) _
  | object d => exact d.carries hinherited hE h
  | single first bare => exact first.carries hinherited hE hO h
  | chain first bare sign second more =>
    simp only [ExprTree.tokens, List.forall_mem_cons, List.forall_mem_append] at h
    obtain ⟨hfirst, -, hsecond, hmore⟩ := h
    have hjoin : holds (join first.value.expr sign.op second.value.expr) :=
      hinherited.binary (first.carries hinherited hE hO hfirst)
        (second.carries hinherited hE hO hsecond) _ _
    exact foldl_joinLink_carries hinherited hE hmore hjoin

end

section
variable {good : Token → Prop} {holds : Expr → Prop} (hinherited : Inherited good holds)
include hinherited

theorem Inherited.phrases (n : Nat) : (exprPhrase n).Carries good holds ∧
    (operandPhrase n).Carries good fun operand => holds operand.expr := by
  induction n with
  | zero => exact ⟨fun d => d.elim, fun d => d.elim⟩
  | succ n ih =>
    constructor
    · intro d h
      exact ExprTree.carries hinherited ih.1 ih.2 h
    · intro d h
      exact OperandTree.carries hinherited ih.1 ih.2 h

end

/-- Every tree relates its tokens to its value. -/
def Phrase.Relates {α : Type} (P : Phrase α) (relation : List Token → α → Prop) : Prop :=
  ∀ d : P.Tree, relation (P.tokens d) (P.value d)

/-- A relation between tokens and what they stand for, for each kind of tree. -/
structure Relations where
  type : List Token → TypeExpr → Prop
  expr : List Token → Expr → Prop
  assignment : List Token → Assignment → Prop
  statement : List Token → Statement → Prop
  declaration : List Token → Declaration → Prop
  block : List Token → Block → Prop

namespace Relations

def item (R : Relations) (ts : List Token) : Item → Prop
  | .declaration d => R.declaration ts d
  | .statement s => R.statement ts s

/-- Every production passes the relations on. -/
structure Closed (R : Relations) : Prop where
  condition (d : ConditionTree) : R.expr d.tokens d.value
  assignment (name : Terminal .identifier) (equal : Terminal .equal) {ts : List Token} {e : Expr}
    (h : R.expr ts e) (span : Span) :
    R.assignment (name.val :: equal.val :: ts) ⟨.identifier name.val.lexeme name.val.span, e, span⟩
  assign {ts : List Token} {a : Assignment} (h : R.assignment ts a) (span : Span) :
    R.statement ts (.assign a span)
  branch (start : Terminal (.keyword .ifWord)) {cs bs : List Token} {c : Expr} {b : Block}
    (hcondition : R.expr cs c) (hthen : R.block bs b) (span : Span) :
    R.statement (start.val :: (cs ++ bs)) (.branch c b none span)
  branchElse (start : Terminal (.keyword .ifWord)) (otherwise : Terminal (.keyword .elseWord))
    {cs bs ds : List Token} {c : Expr} {b d : Block} (hcondition : R.expr cs c)
    (hthen : R.block bs b) (helse : R.block ds d) (span : Span) :
    R.statement (start.val :: (cs ++ (bs ++ otherwise.val :: ds))) (.branch c b (some d) span)
  whileLoop (start : Terminal (.keyword .whileWord)) {cs bs : List Token} {c : Expr} {b : Block}
    (hcondition : R.expr cs c) (hbody : R.block bs b) (span : Span) :
    R.statement (start.val :: (cs ++ bs)) (.whileLoop c b span)
  forLoop (start : Terminal (.keyword .forWord)) (first second : Terminal .semicolon)
    {ts cs us bs : List Token} {initializer increment : Assignment} {c : Expr} {b : Block}
    (hinitializer : R.assignment ts initializer) (hcondition : R.expr cs c)
    (hincrement : R.assignment us increment) (hbody : R.block bs b) (span : Span) :
    R.statement (start.val :: (ts ++ first.val :: (cs ++ second.val :: (us ++ bs))))
      (.forLoop (some initializer) (some c) (some increment) b span)
  function {B : Phrase Block} (d : FunctionTree B)
    (hbody : R.block (B.tokens d.body) (B.value d.body)) : R.declaration d.tokens (d.value none)
  typeName {T : Phrase TypeExpr} (d : DefinitionTree T)
    (htype : R.type (T.tokens d.type) (T.value d.type)) :
    R.declaration d.tokens (.typeName d.name.val.lexeme (T.value d.type) d.span)
  signed {T : Phrase TypeExpr} {B : Phrase Block} (definition : DefinitionTree T)
    (d : FunctionTree B) {parameters : Interface} {result : TypeExpr}
    (hsignature : functionType? (T.value definition.type) = some (parameters, result))
    (htype : R.type (T.tokens definition.type) (T.value definition.type))
    (hbody : R.block (B.tokens d.body) (B.value d.body)) :
    R.declaration (definition.tokens ++ d.tokens) (d.value (some (parameters, result)))
  block (opening : Terminal .leftBrace) (closing : Terminal .rightBrace)
    {items : List (List Token × Item)} (hitems : ∀ i ∈ items, R.item i.1 i.2) (span : Span) :
    R.block (opening.val :: (items.flatMap (·.1) ++ [closing.val]))
      (.mk (items.map (·.2)) none span)
  returning (opening : Terminal .leftBrace) (closing : Terminal .rightBrace)
    (start : Terminal (.keyword .returnWord)) {items : List (List Token × Item)}
    (hitems : ∀ i ∈ items, R.item i.1 i.2) {ts : List Token} {e : Expr} (hresult : R.expr ts e)
    (span : Span) :
    R.block (opening.val :: (items.flatMap (·.1) ++ start.val :: (ts ++ [closing.val])))
      (.mk (items.map (·.2)) (some e) span)

end Relations

section
variable {R : Relations} (hR : R.Closed) {T : Phrase TypeExpr} {E : Phrase Expr}
  {B : Phrase Block} (hT : T.Relates R.type) (hE : E.Relates R.expr) (hB : B.Relates R.block)
include hR

include hE in
theorem AssignmentTree.relates (d : AssignmentTree E) : R.assignment d.tokens d.value :=
  hR.assignment d.name d.equal (hE d.right) _

include hB

include hE in
theorem StatementTree.relates (d : StatementTree E B) : R.statement d.tokens d.value := by
  cases d with
  | assign assignment => exact hR.assign (assignment.relates hR hE) _
  | branch start condition thenBlock =>
    exact hR.branch start (hR.condition condition) (hB thenBlock) _
  | branchElse start condition thenBlock otherwise elseBlock =>
    exact hR.branchElse start otherwise (hR.condition condition) (hB thenBlock) (hB elseBlock) _
  | whileLoop start condition body => exact hR.whileLoop start (hE condition) (hB body) _
  | forLoop start initializer first condition second increment body =>
    exact hR.forLoop start first second (initializer.relates hR hE) (hE condition)
      (increment.relates hR hE) (hB body) _

include hT in
theorem DeclarationTree.relates (d : DeclarationTree T B) : R.declaration d.tokens d.value := by
  cases d with
  | function d => exact hR.function d (hB d.body)
  | typeName definition plain => exact hR.typeName definition (hT definition.type)
  | signed definition parameters result signature d sameName =>
    exact hR.signed definition d signature (hT definition.type) (hB d.body)

include hT hE

theorem ItemTree.relates (d : ItemTree T E B) : R.item d.tokens d.value := by
  cases d with
  | declaration d => exact d.relates hR hT hB
  | statement d => exact d.relates hR hE hB

theorem BlockTree.relates (d : BlockTree T E B) : R.block d.tokens d.value := by
  obtain ⟨opening, items, result, closing⟩ := d
  have hitems : ∀ i ∈ items.map fun d => (d.tokens, d.value), R.item i.1 i.2 :=
    List.forall_mem_map.mpr fun d _ => d.relates hR hT hE hB
  have htokens : (items.map fun d => (d.tokens, d.value)).flatMap (·.1) =
      items.flatMap ItemTree.tokens := List.flatMap_map _ _ _
  have hvalues : (items.map fun d => (d.tokens, d.value)).map (·.2) = items.map ItemTree.value :=
    List.map_map
  cases result with
  | none =>
    have hblock := hR.block opening closing hitems (opening.val.span.cover closing.val.span)
    rwa [htokens, hvalues] at hblock
  | some result =>
    have hblock := hR.returning opening closing result.1 hitems (hE result.2)
      (opening.val.span.cover closing.val.span)
    rwa [htokens, hvalues] at hblock

end

namespace Relations.Closed
variable {R : Relations} (hR : R.Closed) {n : Nat}
  (hT : ∀ m ≤ n, (typePhrase m).Relates R.type) (hE : ∀ m ≤ n, (exprPhrase m).Relates R.expr)
include hR hT hE

theorem blockPhrase : (blockPhrase n).Relates R.block := by
  induction n with
  | zero => exact fun d => d.elim
  | succ n ih =>
    have hB := ih (fun m hm => hT m (Nat.le_succ_of_le hm)) fun m hm => hE m (Nat.le_succ_of_le hm)
    exact BlockTree.relates hR (hT n (Nat.le_succ n)) (hE n (Nat.le_succ n)) hB

theorem declaration (d : DeclarationTree (typePhrase n) (Grammar.blockPhrase n)) :
    R.declaration d.tokens d.value :=
  d.relates hR (hT n (Nat.le_refl n)) (hR.blockPhrase hT hE)

end Relations.Closed

/-- A property of each kind of node. -/
structure Traits where
  type : TypeExpr → Prop
  expr : Expr → Prop
  assignment : Assignment → Prop
  statement : Statement → Prop
  declaration : Declaration → Prop
  block : Block → Prop

namespace Traits

def item (P : Traits) : Item → Prop
  | .declaration d => P.declaration d
  | .statement s => P.statement s

/-- Good tokens stand for nodes with the property. -/
def relations (P : Traits) (good : Token → Prop) : Relations where
  type ts a := (∀ t ∈ ts, good t) → P.type a
  expr ts e := (∀ t ∈ ts, good t) → P.expr e
  assignment ts a := (∀ t ∈ ts, good t) → P.assignment a
  statement ts s := (∀ t ∈ ts, good t) → P.statement s
  declaration ts d := (∀ t ∈ ts, good t) → P.declaration d
  block ts b := (∀ t ∈ ts, good t) → P.block b

/-- Properties that good tokens begin and that every rule passes on. A parameter has the type
that a signature gives to its name. -/
structure Inherited (P : Traits) (good : Token → Prop) : Prop where
  condition {d : ConditionTree} (h : ∀ t ∈ d.tokens, good t) : P.expr d.value
  assignment {name : Terminal .identifier} {e : Expr} (hname : good name.val) (h : P.expr e)
    (span : Span) : P.assignment ⟨.identifier name.val.lexeme name.val.span, e, span⟩
  assign {a : Assignment} (h : P.assignment a) (span : Span) : P.statement (.assign a span)
  branch {c : Expr} {b : Block} (hcondition : P.expr c) (hthen : P.block b) (span : Span) :
    P.statement (.branch c b none span)
  branchElse {c : Expr} {b d : Block} (hcondition : P.expr c) (hthen : P.block b)
    (helse : P.block d) (span : Span) : P.statement (.branch c b (some d) span)
  whileLoop {c : Expr} {b : Block} (hcondition : P.expr c) (hbody : P.block b) (span : Span) :
    P.statement (.whileLoop c b span)
  forLoop {initializer increment : Assignment} {c : Expr} {b : Block}
    (hinitializer : P.assignment initializer) (hcondition : P.expr c)
    (hincrement : P.assignment increment) (hbody : P.block b) (span : Span) :
    P.statement (.forLoop (some initializer) (some c) (some increment) b span)
  function {name : Terminal .identifier} {parameters : List (Terminal .identifier)}
    {signature : Option (Interface × TypeExpr)} {b : Block} (hname : good name.val)
    (hparameters : ∀ parameter ∈ parameters, good parameter.val)
    (hsignature : ∀ s ∈ signature, ∃ span, P.type (.function s.1 s.2 span)) (hbody : P.block b)
    (span : Span) :
    P.declaration (.function name.val.lexeme
      (parameters.map fun parameter => ⟨parameter.val.lexeme,
        signature.bind fun s => Record.get? parameter.val.lexeme s.1.fields, parameter.val.span⟩)
      (signature.map (·.2)) b span)
  typeName {name : Terminal .identifier} {a : TypeExpr} (hname : good name.val) (h : P.type a)
    (span : Span) : P.declaration (.typeName name.val.lexeme a span)
  block {items : List Item} {result : Option Expr} (hitems : ∀ i ∈ items, P.item i)
    (hresult : ∀ e ∈ result, P.expr e) (span : Span) : P.block (.mk items result span)

end Traits

section
variable {P : Traits} {good : Token → Prop} (hP : P.Inherited good)
include hP

theorem FunctionTree.inherits {B : Phrase Block} {d : FunctionTree B}
    (hbody : (∀ t ∈ B.tokens d.body, good t) → P.block (B.value d.body))
    {signature : Option (Interface × TypeExpr)}
    (hsignature : ∀ s ∈ signature, ∃ span, P.type (.function s.1 s.2 span))
    (h : ∀ t ∈ d.tokens, good t) : P.declaration (d.value signature) := by
  simp only [FunctionTree.tokens, List.forall_mem_cons, List.forall_mem_append] at h
  obtain ⟨-, hname, -, -, hparameters, -, hblock⟩ := h
  refine hP.function hname (fun parameter hparameter => ?_) hsignature (hbody hblock) _
  exact hparameters _ (CommaList.tokens_subset hparameter (List.mem_singleton_self _))

omit hP in
theorem Traits.item_of_relations {items : List (List Token × Item)}
    (hitems : ∀ i ∈ items, (P.relations good).item i.1 i.2)
    (h : ∀ t ∈ items.flatMap (·.1), good t) : ∀ i ∈ items.map (·.2), P.item i := by
  refine List.forall_mem_map.mpr fun i hi => ?_
  have hitem := hitems i hi
  have hgood : ∀ t ∈ i.1, good t := fun t ht => h t (List.mem_flatMap.mpr ⟨i, hi, ht⟩)
  obtain ⟨ts, d | s⟩ := i
  · exact hitem hgood
  · exact hitem hgood

theorem Traits.Inherited.closed : (P.relations good).Closed where
  condition _ := hP.condition
  assignment _ _ {_ _} he span h := by
    simp only [List.forall_mem_cons] at h
    exact hP.assignment h.1 (he h.2.2) span
  assign ha span h := hP.assign (ha h) span
  branch _ {_ _ _ _} hcondition hthen span h := by
    simp only [List.forall_mem_cons, List.forall_mem_append] at h
    exact hP.branch (hcondition h.2.1) (hthen h.2.2) span
  branchElse _ _ {_ _ _ _ _ _} hcondition hthen helse span h := by
    simp only [List.forall_mem_cons, List.forall_mem_append] at h
    obtain ⟨-, hc, hb, -, hd⟩ := h
    exact hP.branchElse (hcondition hc) (hthen hb) (helse hd) span
  whileLoop _ {_ _ _ _} hcondition hbody span h := by
    simp only [List.forall_mem_cons, List.forall_mem_append] at h
    exact hP.whileLoop (hcondition h.2.1) (hbody h.2.2) span
  forLoop _ _ _ {_ _ _ _ _ _ _ _} hinitializer hcondition hincrement hbody span h := by
    simp only [List.forall_mem_cons, List.forall_mem_append] at h
    obtain ⟨-, hi, -, hc, -, hn, hb⟩ := h
    exact hP.forLoop (hinitializer hi) (hcondition hc) (hincrement hn) (hbody hb) span
  function _ hbody h := FunctionTree.inherits hP hbody (by simp) h
  typeName _ htype h := by
    simp only [DefinitionTree.tokens, List.forall_mem_cons] at h
    exact hP.typeName h.2.1 (htype h.2.2.2) _
  signed {_ _} _ _ {_ _} hsignature htype hbody h := by
    simp only [DefinitionTree.tokens, List.forall_mem_cons, List.forall_mem_append] at h
    refine FunctionTree.inherits hP hbody ?_ h.2
    rintro s ⟨⟩
    obtain ⟨span, hvalue⟩ := functionType?_eq_some.mp hsignature
    exact ⟨span, hvalue ▸ htype h.1.2.2.2⟩
  block _ _ {_} hitems span h := by
    simp only [List.forall_mem_cons, List.forall_mem_append] at h
    exact hP.block (Traits.item_of_relations hitems h.2.1) (by simp) span
  returning _ _ _ {_} hitems {_ _} hresult span h := by
    simp only [List.forall_mem_cons, List.forall_mem_append] at h
    obtain ⟨-, hi, -, he, -⟩ := h
    exact hP.block (Traits.item_of_relations hitems hi) (by simpa using hresult he) span

end

end Scriptwright.Grammar
