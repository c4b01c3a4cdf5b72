import Scriptwright.Proofs.Grammar.Induction

/-!
# Expressions in a program

An expression occurs in a program if it is inside one that the program states: an
assigned name or value, a condition, or a result. Each stated expression is derived from
tokens of the program by the grammar of expressions, with no more levels than the program
has. Assigned names and conditions are no exceptions, although they have rules of their
own.
-/

namespace Scriptwright

def TemplatePart.code? : TemplatePart → Option Expr
  | .text _ => none
  | .code e => some e

/-- The expressions directly inside an expression. -/
def Expr.children : Expr → List Expr
  | .number _ _ | .text _ _ | .boolean _ _ | .nil _ | .identifier _ _ => []
  | .binary left _ right _ => [left, right]
  | .unary _ argument _ => [argument]
  | .call callee arguments _ => callee :: arguments
  | .member base property _ _ => [base, property]
  | .array elements _ => elements
  | .object fields _ => fields.map (·.2)
  | .template parts _ => parts.filterMap TemplatePart.code?

inductive Expr.Within (e : Expr) : Expr → Prop
  | self : Within e e
  | child {parent child : Expr} (hmem : child ∈ parent.children) (h : Within e child) :
      Within e parent

/-- What passes on to children holds everywhere inside. -/
theorem Expr.Within.of_hereditary {P : Expr → Prop}
    (hchild : ∀ parent, P parent → ∀ child ∈ parent.children, P child) {e root : Expr}
    (h : e.Within root) (hroot : P root) : P e := by
  induction h with
  | self => exact hroot
  | child hmem _ ih => exact ih (hchild _ hroot _ hmem)

def Assignment.roots (a : Assignment) : List Expr := [a.left, a.right]

mutual

/-- The expressions that a declaration states, in no other expression. -/
def Declaration.roots : Declaration → List Expr
  | .function _ _ _ body _ => body.roots
  | .typeName _ _ _ => []

def Block.roots : Block → List Expr
  | .mk items result _ => Item.listRoots items ++ result.toList

def Item.listRoots : List Item → List Expr
  | [] => []
  | .declaration d :: items => d.roots ++ Item.listRoots items
  | .statement s :: items => s.roots ++ Item.listRoots items

def Statement.roots : Statement → List Expr
  | .assign assignment _ => assignment.roots
  | .branch condition thenBlock none _ => condition :: thenBlock.roots
  | .branch condition thenBlock (some elseBlock) _ =>
    condition :: (thenBlock.roots ++ elseBlock.roots)
  | .whileLoop condition body _ => condition :: body.roots
  | .forLoop initializer condition increment body _ =>
    (initializer.toList.flatMap Assignment.roots) ++ condition.toList ++
      (increment.toList.flatMap Assignment.roots) ++ body.roots

end

def Program.roots (p : Program) : List Expr := p.declarations.flatMap Declaration.roots

def Expr.OccursIn (e : Expr) (p : Program) : Prop := ∃ root ∈ p.roots, e.Within root

namespace Grammar

/-- The expression has a derivation of at most `limit` levels, from tokens of the source. -/
def Derived (limit : Nat) (source : List Token) (e : Expr) : Prop :=
  ∃ n ≤ limit, ∃ d : (exprPhrase n).Tree,
    (exprPhrase n).tokens d ⊆ source ∧ (exprPhrase n).value d = e

theorem Inherited.derived {good : Token → Prop} {holds : Expr → Prop}
    (hinherited : Inherited good holds) {limit : Nat} {source : List Token}
    (h : ∀ t ∈ source, good t) {e : Expr} (he : Derived limit source e) : holds e := by
  obtain ⟨n, -, d, hd, rfl⟩ := he
  exact (hinherited.phrases n).1 d fun t ht => h t (hd ht)

section
variable {limit : Nat} {source : List Token} (hlimit : 1 ≤ limit)
include hlimit

theorem derived_name {name : Terminal .identifier} (h : name.val ∈ source) :
    Derived limit source (.identifier name.val.lexeme name.val.span) := by
  refine ⟨1, hlimit, .single (.plain (.term (nameTree name)) []) rfl, ?_, rfl⟩
  exact List.cons_subset.mpr ⟨h, List.nil_subset _⟩

theorem derived_condition {d : ConditionTree} (h : d.tokens ⊆ source) :
    Derived limit source d.value := by
  have hsign := d.sign.spells
  rw [comparison?_eq, Option.filter_eq_some_iff] at hsign
  exact ⟨1, hlimit, .chain (.plain (.term (nameTree d.name)) []) rfl
    ⟨d.sign.token, d.sign.op, hsign.1⟩ (.plain (.term d.right) []) [], h, rfl⟩

end

/-- All stated expressions are derived. -/
def rootsDerived (limit : Nat) (source : List Token) : Traits where
  type _ := True
  expr := Derived limit source
  assignment a := ∀ e ∈ a.roots, Derived limit source e
  statement s := ∀ e ∈ s.roots, Derived limit source e
  declaration d := ∀ e ∈ d.roots, Derived limit source e
  block b := ∀ e ∈ b.roots, Derived limit source e

theorem rootsDerived_items {limit : Nat} {source : List Token} {items : List Item}
    (h : ∀ i ∈ items, (rootsDerived limit source).item i) :
    ∀ e ∈ Item.listRoots items, Derived limit source e := by
  induction items with
  | nil => exact List.forall_mem_nil _
  | cons item items ih =>
    obtain ⟨hitem, hitems⟩ := List.forall_mem_cons.mp h
    cases item with
    | declaration d => exact List.forall_mem_append.mpr ⟨hitem, ih hitems⟩
    | statement s => exact List.forall_mem_append.mpr ⟨hitem, ih hitems⟩

theorem rootsDerived_inherited {limit : Nat} (hlimit : 1 ≤ limit) (source : List Token) :
    (rootsDerived limit source).Inherited (· ∈ source) where
  condition h := derived_condition hlimit h
  assignment hname h _ :=
    List.forall_mem_cons.mpr ⟨derived_name hlimit hname, List.forall_mem_singleton.mpr h⟩
  assign h _ := h
  branch hcondition hthen _ := List.forall_mem_cons.mpr ⟨hcondition, hthen⟩
  branchElse hcondition hthen helse _ :=
    List.forall_mem_cons.mpr ⟨hcondition, List.forall_mem_append.mpr ⟨hthen, helse⟩⟩
  whileLoop hcondition hbody _ := List.forall_mem_cons.mpr ⟨hcondition, hbody⟩
  forLoop hinitializer hcondition hincrement hbody _ := by
    simp only [rootsDerived, Statement.roots, Option.toList_some, List.flatMap_singleton,
      List.forall_mem_append, List.forall_mem_singleton]
    exact ⟨⟨⟨hinitializer, hcondition⟩, hincrement⟩, hbody⟩
  function _ _ _ hbody _ := hbody
  typeName _ _ _ := List.forall_mem_nil _
  block hitems hresult _ :=
    List.forall_mem_append.mpr ⟨rootsDerived_items hitems,
      fun e he => hresult e (Option.mem_toList.mp he)⟩

theorem ProgramTree.derived {d : ProgramTree} {file : Nat} :
    ∀ e ∈ (d.value file).roots, Derived nestingLimit d.tokens e := by
  intro e he
  obtain ⟨declaration, hmem, he⟩ := List.mem_flatMap.mp he
  obtain ⟨tree, htree, rfl⟩ := List.mem_map.mp hmem
  have hclosed := (rootsDerived_inherited (by decide : 1 ≤ nestingLimit) d.tokens).closed
  refine hclosed.declaration (fun _ _ _ _ => trivial) (fun n hn e h => ⟨n, hn, e, h, rfl⟩) tree
    (fun t ht => ?_) e he
  exact List.mem_flatMap.mpr ⟨tree, htree, ht⟩

/-- Every expression that a parsed program states is derived from its tokens. -/
theorem derived_of_ofTokens {file : Nat} {tokens : List Token} {p : Program}
    (h : Program.ofTokens file tokens = .ok p) {root : Expr} (hroot : root ∈ p.roots) :
    Derived nestingLimit (Token.body tokens) root := by
  obtain ⟨d, htokens, rfl⟩ := ofTokens_eq_ok.mp h
  rw [← htokens]
  exact ProgramTree.derived root hroot

end Grammar

end Scriptwright
