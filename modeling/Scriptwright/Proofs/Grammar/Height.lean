import Mathlib.Data.List.TakeWhile
import Scriptwright.Proofs.Grammar.Occurrence

/-!
# The height of expressions

The nesting limit is a limit on levels. A call, an index or an element of a list goes one
level down to what it has in its brackets, but not to the expression in front of them. That
one, and the operands of an operator, are links of a chain, and a chain may be as long as
it likes without a level more.

So the expressions of a program have at most as many levels as the limit, and there is no
bound on their height. The height is bounded as soon as the chains are.
-/

namespace Scriptwright

namespace Expr

/-- The expressions one level down. -/
def nested : Expr → List Expr
  | unary _ argument _ => [argument]
  | call _ arguments _ => arguments
  | member _ property true _ => [property]
  | array elements _ => elements
  | object fields _ => fields.map (·.2)
  | template parts _ => parts.filterMap TemplatePart.code?
  | _ => []

/-- The expressions that are the next links of the chain. -/
def linked : Expr → List Expr
  | binary left _ right _ => [left, right]
  | call callee _ _ => [callee]
  | member base _ true _ => [base]
  | member base property false _ => [base, property]
  | _ => []

theorem mem_children {e child : Expr} :
    child ∈ e.children ↔ child ∈ e.nested ∨ child ∈ e.linked := by
  cases e with
  | member base property computed span =>
    cases computed <;> simp [children, nested, linked, or_comm]
  | call => simp [children, nested, linked, or_comm]
  | _ => simp [children, nested, linked]

/-- The number of links of the longest chain that begins with the expression. -/
def links : Expr → Nat
  | binary left _ right _ => max left.links right.links + 1
  | call callee _ _ => callee.links + 1
  | member base _ true _ => base.links + 1
  | member base property false _ => max base.links property.links + 1
  | _ => 0

end Expr

mutual

/-- The length of the longest way down, where a step to the next level counts `inside`
and a step to the next link counts `along`. -/
def Expr.depth (inside along : Nat) : Expr → Nat
  | .binary left _ right _ => along + max (left.depth inside along) (right.depth inside along)
  | .unary _ argument _ => inside + argument.depth inside along
  | .call callee arguments _ =>
    max (along + callee.depth inside along) (Expr.listDepth inside along arguments)
  | .member base property true _ =>
    max (along + base.depth inside along) (inside + property.depth inside along)
  | .member base property false _ =>
    along + max (base.depth inside along) (property.depth inside along)
  | .array elements _ => Expr.listDepth inside along elements
  | .object fields _ => Expr.fieldsDepth inside along fields
  | .template parts _ => Expr.partsDepth inside along parts
  | _ => 0

def Expr.listDepth (inside along : Nat) : List Expr → Nat
  | [] => 0
  | e :: es => max (inside + e.depth inside along) (Expr.listDepth inside along es)

def Expr.fieldsDepth (inside along : Nat) : List (String × Expr) → Nat
  | [] => 0
  | (_, e) :: fields => max (inside + e.depth inside along) (Expr.fieldsDepth inside along fields)

def Expr.partsDepth (inside along : Nat) : List TemplatePart → Nat
  | [] => 0
  | .text _ :: parts => Expr.partsDepth inside along parts
  | .code e :: parts => max (inside + e.depth inside along) (Expr.partsDepth inside along parts)

end

namespace Expr

/-- The number of nodes on the longest way down. -/
def height (e : Expr) : Nat := e.depth 1 1 + 1

/-- The number of levels on the way down that has most of them. -/
def nesting (e : Expr) : Nat := e.depth 1 0

section
variable {inside along bound : Nat}

theorem listDepth_le_iff {es : List Expr} :
    listDepth inside along es ≤ bound ↔ ∀ e ∈ es, inside + e.depth inside along ≤ bound := by
  induction es with
  | nil => simp [listDepth]
  | cons e es ih => rw [listDepth, Nat.max_le, ih, List.forall_mem_cons]

theorem fieldsDepth_eq (fields : List (String × Expr)) :
    fieldsDepth inside along fields = listDepth inside along (fields.map (·.2)) := by
  induction fields with
  | nil => rfl
  | cons field fields ih => rw [fieldsDepth, ih, List.map_cons, listDepth]

theorem partsDepth_eq (parts : List TemplatePart) :
    partsDepth inside along parts =
      listDepth inside along (parts.filterMap TemplatePart.code?) := by
  induction parts with
  | nil => rfl
  | cons part parts ih =>
    cases part with
    | text content => rw [partsDepth, ih]; rfl
    | code e => rw [partsDepth, ih]; rfl

theorem depth_le_iff {e : Expr} :
    e.depth inside along ≤ bound ↔
      (∀ child ∈ e.nested, inside + child.depth inside along ≤ bound) ∧
        ∀ child ∈ e.linked, along + child.depth inside along ≤ bound := by
  cases e with
  | member base property computed span =>
    cases computed <;> simp [depth, nested, linked] <;> omega
  | binary | unary => simp [depth, nested, linked] <;> omega
  | call callee arguments span =>
    rw [depth, Nat.max_le, listDepth_le_iff, and_comm]
    simp [nested, linked]
  | array => simp [depth, nested, linked, listDepth_le_iff]
  | object => simp [depth, nested, linked, fieldsDepth_eq, listDepth_le_iff]
  | template => simp [depth, nested, linked, partsDepth_eq, listDepth_le_iff]
  | number | text | boolean | nil | identifier => simp [depth, nested, linked]

theorem add_depth_nested {e child : Expr} (h : child ∈ e.nested) :
    inside + child.depth inside along ≤ e.depth inside along :=
  (depth_le_iff.mp (Nat.le_refl _)).1 child h

theorem add_depth_linked {e child : Expr} (h : child ∈ e.linked) :
    along + child.depth inside along ≤ e.depth inside along :=
  (depth_le_iff.mp (Nat.le_refl _)).2 child h

theorem depth_child_le {e child : Expr} (h : child ∈ e.children) :
    child.depth inside along ≤ e.depth inside along := by
  cases mem_children.mp h with
  | inl h => exact Nat.le_of_add_left_le (add_depth_nested h)
  | inr h => exact Nat.le_of_add_left_le (add_depth_linked h)

end

theorem links_lt {e child : Expr} (h : child ∈ e.linked) : child.links < e.links := by
  cases e with
  | binary left op right span =>
    simp only [linked, List.mem_cons, List.not_mem_nil, or_false] at h
    rcases h with rfl | rfl <;> simp only [links] <;> omega
  | call callee arguments span =>
    rw [List.mem_singleton.mp h, links]
    exact Nat.lt_succ_self _
  | member base property computed span =>
    cases computed with
    | true =>
      rw [List.mem_singleton.mp h, links]
      exact Nat.lt_succ_self _
    | false =>
      simp only [linked, List.mem_cons, List.not_mem_nil, or_false] at h
      rcases h with rfl | rfl <;> simp only [links] <;> omega
  | number | text | boolean | nil | identifier | unary | array | object | template => cases h

/-- Expressions end. -/
theorem induction_children {P : Expr → Prop}
    (h : ∀ e : Expr, (∀ child ∈ e.children, P child) → P e) (e : Expr) : P e := by
  -- On the height: a child has less of it.
  induction hn : e.depth 1 1 using Nat.strongRecOn generalizing e with
  | ind n ih =>
    refine h e fun child hchild => ih _ ?_ child rfl
    rw [← hn]
    cases mem_children.mp hchild with
    | inl hchild => exact Nat.lt_of_lt_of_le (by omega) (add_depth_nested hchild)
    | inr hchild => exact Nat.lt_of_lt_of_le (by omega) (add_depth_linked hchild)

theorem links_eq (e : Expr) : e.links = 0 ∨ ∃ child ∈ e.linked, e.links = child.links + 1 := by
  have hmax (left right : Expr) :
      ∃ child ∈ [left, right], max left.links right.links + 1 = child.links + 1 := by
    cases Nat.le_total left.links right.links with
    | inl h => exact ⟨right, by simp, by rw [Nat.max_eq_right h]⟩
    | inr h => exact ⟨left, by simp, by rw [Nat.max_eq_left h]⟩
  cases e with
  | binary left op right span => exact .inr (hmax left right)
  | call callee arguments span => exact .inr ⟨callee, List.mem_singleton_self _, rfl⟩
  | member base property computed span =>
    cases computed with
    | true => exact .inr ⟨base, List.mem_singleton_self _, rfl⟩
    | false => exact .inr (hmax base property)
  | number | text | boolean | nil | identifier | unary | array | object | template =>
    exact .inl rfl

theorem links_lt_height (e : Expr) : e.links < e.height := by
  induction e using induction_children with
  | h e ih =>
    cases e.links_eq with
    | inl hzero =>
      rw [hzero]
      exact Nat.succ_pos _
    | inr hlink =>
      obtain ⟨child, hmem, hlinks⟩ := hlink
      have hchild := ih child (mem_children.mpr (.inr hmem))
      have hdepth : 1 + child.depth 1 1 ≤ e.depth 1 1 := add_depth_linked hmem
      rw [height] at hchild ⊢
      omega

/-- Between two levels a way down goes along one chain. -/
theorem depth_le_nesting {k : Nat} (e : Expr) (h : ∀ x, Within x e → x.links ≤ k) :
    e.depth 1 1 ≤ e.nesting * (k + 1) + e.links := by
  induction e using induction_children with
  | h e ih =>
    have hchild : ∀ child ∈ e.children, ∀ x, Within x child → x.links ≤ k :=
      fun child hmem x hx => h x (.child hmem hx)
    refine depth_le_iff.mpr ⟨fun child hmem => ?_, fun child hmem => ?_⟩
    · have hmem' := mem_children.mpr (.inl hmem)
      have hdepth := ih child hmem' (hchild child hmem')
      have hlinks := hchild child hmem' child .self
      have hlevel : 1 + child.nesting ≤ e.nesting := add_depth_nested hmem
      calc 1 + child.depth 1 1 ≤ 1 + (child.nesting * (k + 1) + k) := by omega
        _ = (1 + child.nesting) * (k + 1) := by rw [Nat.add_mul]; omega
        _ ≤ e.nesting * (k + 1) := Nat.mul_le_mul_right _ hlevel
        _ ≤ e.nesting * (k + 1) + e.links := Nat.le_add_right _ _
    · have hmem' := mem_children.mpr (.inr hmem)
      have hdepth := ih child hmem' (hchild child hmem')
      have hlinks := links_lt hmem
      have hlevels : child.nesting ≤ e.nesting := depth_child_le hmem'
      have hmul := Nat.mul_le_mul_right (k + 1) hlevels
      omega

theorem height_le {k : Nat} (e : Expr) (h : ∀ x, Within x e → x.links ≤ k) :
    e.height ≤ (e.nesting + 1) * (k + 1) := by
  have hdepth := e.depth_le_nesting h
  have hlinks := h e .self
  rw [height, Nat.add_mul]
  omega

theorem nesting_le_succ_iff {e : Expr} {n : Nat} :
    e.nesting ≤ n + 1 ↔
      (∀ child ∈ e.nested, child.nesting ≤ n) ∧ ∀ child ∈ e.linked, child.nesting ≤ n + 1 := by
  rw [nesting, depth_le_iff]
  simp only [nesting, Nat.add_comm 1, Nat.zero_add, Nat.add_le_add_iff_right]

theorem depth_withSpan (inside along : Nat) (span : Span) (e : Expr) :
    (e.withSpan span).depth inside along = e.depth inside along := by
  cases e with
  | member base property computed _ => cases computed <;> rfl
  | _ => rfl

end Expr

namespace Grammar
open Scriptwright.Expr

theorem nesting_of_term? {t : Token} {e : Expr} (h : term? t = some e) : e.nesting = 0 := by
  unfold term? at h
  split at h <;> cases h <;> rfl

section
variable {E : Phrase Expr} {O : Phrase Operand} {n : Nat}
  (hE : ∀ d : E.Tree, (E.value d).nesting ≤ n)
  (hO : ∀ d : O.Tree, (O.value d).expr.nesting ≤ n)
include hE

theorem CommaList.nesting_le (items : CommaList E.Tree) :
    ∀ e ∈ items.items.map E.value, e.nesting ≤ n := by
  intro e he
  obtain ⟨d, -, rfl⟩ := List.mem_map.mp he
  exact hE d

theorem ObjectTree.nesting_le (d : ObjectTree E) : d.value.nesting ≤ n + 1 := by
  refine nesting_le_succ_iff.mpr ⟨fun child hmem => ?_, List.forall_mem_nil _⟩
  obtain ⟨field, hfield, rfl⟩ := List.mem_map.mp hmem
  obtain ⟨tree, -, rfl⟩ := List.mem_map.mp (Record.merged_subset _ hfield)
  cases tree with
  | named name colon value => exact hE value
  | shorthand name => exact Nat.zero_le n

theorem GroupTree.nesting_le (d : GroupTree E) : d.value.nesting ≤ n := by
  rw [nesting, GroupTree.value, depth_withSpan]
  exact hE d.inner

theorem HeadTree.nesting_le (d : HeadTree E) : d.value.expr.nesting ≤ n + 1 := by
  cases d with
  | group d => exact Nat.le_succ_of_le (d.nesting_le hE)
  | object d => exact d.nesting_le hE
  | term d =>
    rw [HeadTree.value, nesting_of_term? d.denotes]
    exact Nat.zero_le _

/-- A trailer puts a link in front, and its brackets are a level of their own. -/
theorem TrailerTree.nesting_le {operand : Operand} (h : operand.expr.nesting ≤ n + 1)
    (d : TrailerTree E) : (d.apply operand).expr.nesting ≤ n + 1 := by
  apply nesting_le_succ_iff.mpr
  cases d with
  | call opening arguments closing =>
    exact ⟨CommaList.nesting_le hE arguments, List.forall_mem_singleton.mpr h⟩
  | index opening inner closing =>
    exact ⟨List.forall_mem_singleton.mpr (hE inner), List.forall_mem_singleton.mpr h⟩
  | member dot name =>
    refine ⟨List.forall_mem_nil _, List.forall_mem_cons.mpr ⟨h, ?_⟩⟩
    exact List.forall_mem_singleton.mpr (Nat.zero_le _)

theorem foldl_apply_nesting_le (trailers : List (TrailerTree E)) {operand : Operand}
    (h : operand.expr.nesting ≤ n + 1) :
    (trailers.foldl TrailerTree.apply operand).expr.nesting ≤ n + 1 := by
  induction trailers generalizing operand with
  | nil => exact h
  | cons trailer trailers ih => exact ih (trailer.nesting_le hE h)

omit hE in
theorem join_nesting_le {left right : Expr} (hleft : left.nesting ≤ n + 1)
    (hright : right.nesting ≤ n + 1) (op : BinaryOp) : (join left op right).nesting ≤ n + 1 :=
  nesting_le_succ_iff.mpr ⟨List.forall_mem_nil _,
    List.forall_mem_cons.mpr ⟨hleft, List.forall_mem_singleton.mpr hright⟩⟩

theorem foldl_joinLink_nesting_le (links : List (Sign BinaryOp.ofKind? × GroupTree E))
    {left : Expr} (h : left.nesting ≤ n + 1) : (links.foldl joinLink left).nesting ≤ n + 1 := by
  induction links generalizing left with
  | nil => exact h
  | cons link links ih =>
    exact ih (join_nesting_le h (Nat.le_succ_of_le (link.2.nesting_le hE)) link.1.op)

include hO

theorem OperandTree.nesting_le (d : OperandTree E O) : d.value.expr.nesting ≤ n + 1 := by
  cases d with
  | unary sign argument =>
    exact nesting_le_succ_iff.mpr
      ⟨List.forall_mem_singleton.mpr (hO argument), List.forall_mem_nil _⟩
  | plain head trailers => exact foldl_apply_nesting_le hE trailers (head.nesting_le hE)

theorem ExprTree.nesting_le (d : ExprTree E O) : d.value.nesting ≤ n + 1 := by
  cases d with
  | template token =>
    refine nesting_le_succ_iff.mpr ⟨fun child hmem => ?_, List.forall_mem_nil _⟩
    obtain ⟨part, hpart, hcode⟩ := List.mem_filterMap.mp hmem
    obtain ⟨segment, -, rfl⟩ := List.mem_map.mp hpart
    cases segment with
    | text content => cases hcode
    | name name span =>
      cases hcode
      exact Nat.zero_le n
  | emptyArray brackets => exact Nat.zero_le _
  | array opening elements closing =>
    exact nesting_le_succ_iff.mpr ⟨CommaList.nesting_le hE elements, List.forall_mem_nil _⟩
  | object d => exact d.nesting_le hE
  | single first bare => exact first.nesting_le hE hO
  | chain first bare sign second more =>
    exact foldl_joinLink_nesting_le hE more
      (join_nesting_le (first.nesting_le hE hO) (second.nesting_le hE hO) sign.op)

end

theorem phrases_nesting_le (n : Nat) :
    (∀ d : (exprPhrase n).Tree, ((exprPhrase n).value d).nesting ≤ n) ∧
      ∀ d : (operandPhrase n).Tree, ((operandPhrase n).value d).expr.nesting ≤ n := by
  induction n with
  | zero => exact ⟨fun d => d.elim, fun d => d.elim⟩
  | succ n ih =>
    exact ⟨fun d => ExprTree.nesting_le ih.1 ih.2 d, fun d => OperandTree.nesting_le ih.1 ih.2 d⟩

/-- No expression of a program has more levels than the limit. -/
theorem nesting_le_of_ofTokens {file : Nat} {tokens : List Token} {p : Program}
    (h : Program.ofTokens file tokens = .ok p) {e : Expr} (he : e.OccursIn p) :
    e.nesting ≤ nestingLimit := by
  obtain ⟨root, hroot, hwithin⟩ := he
  obtain ⟨n, hn, d, -, rfl⟩ := derived_of_ofTokens h hroot
  have hroot : ((exprPhrase n).value d).nesting ≤ nestingLimit :=
    Nat.le_trans ((phrases_nesting_le n).1 d) hn
  exact hwithin.of_hereditary (P := fun e => e.nesting ≤ nestingLimit)
    (fun parent hparent child hchild => Nat.le_trans (depth_child_le hchild) hparent) hroot

end Grammar

/-- A name and `n` times the same member of it. -/
def Expr.accessed : Nat → Expr
  | 0 => .identifier "a" default
  | n + 1 => .member (accessed n) (.identifier "b" default) false default

namespace Expr

theorem links_accessed (n : Nat) : (accessed n).links = n := by
  induction n with
  | zero => rfl
  | succ n ih => simp [accessed, links, ih]

theorem links_le_of_within_accessed {n : Nat} {x : Expr} (h : x.Within (accessed n)) :
    x.links ≤ n := by
  induction n with
  | zero =>
    cases h with
    | self => exact Nat.le_refl 0
    | child hmem => cases hmem
  | succ n ih =>
    cases h with
    | self => exact Nat.le_of_eq (links_accessed (n + 1))
    | child hmem h =>
      rcases List.mem_cons.mp hmem with rfl | hmem
      · exact Nat.le_succ_of_le (ih h)
      · rw [List.mem_singleton.mp hmem] at h
        cases h with
        | self => exact Nat.zero_le _
        | child hmem => cases hmem

end Expr

namespace Grammar

/-- A leaf with no value and no place. -/
def leaf (kind : Kind) (lexeme : String) : Terminal kind := ⟨⟨kind, lexeme, .none, default⟩, rfl⟩

def accessedTree (n levels : Nat) : (exprPhrase (levels + 1)).Tree :=
  .single (.plain (.term (nameTree (leaf .identifier "a")))
    (List.replicate n (.member (leaf .dot ".") (leaf .identifier "b")))) rfl

theorem value_accessedTree (n levels : Nat) :
    (exprPhrase (levels + 1)).value (accessedTree n levels) = Expr.accessed n := by
  have hfold : (List.replicate n (TrailerTree.member (leaf .dot ".") (leaf .identifier "b"))).foldl
      (TrailerTree.apply (E := exprPhrase levels)) ⟨.identifier "a" default, false⟩ =
        ⟨Expr.accessed n, false⟩ := by
    induction n with
    | zero => rfl
    | succ n ih =>
      have hspan : (Expr.accessed n).span = default := by cases n <;> rfl
      rw [List.replicate_succ', List.foldl_append, ih, List.foldl_cons, TrailerTree.apply, hspan]
      rfl
  exact congrArg Operand.expr hfold

/-- `func f = {} { return a.b.b }`, with any number of members. -/
def accessedProgram (n : Nat) : ProgramTree := ⟨[.function
  ⟨leaf (.keyword .funcWord) "func", leaf .identifier "f", leaf .equal "=",
    leaf .leftBrace "\x7b", .none, leaf .rightBrace "\x7d",
    (⟨leaf .leftBrace "\x7b", [],
      some (leaf (.keyword .returnWord) "return", accessedTree n (nestingLimit - 2)),
      leaf .rightBrace "\x7d"⟩ : BlockTree (typePhrase (nestingLimit - 1))
        (exprPhrase (nestingLimit - 1)) (blockPhrase (nestingLimit - 1)))⟩]⟩

theorem tokens_accessedProgram (n : Nat) :
    (accessedProgram n).tokens =
      [(leaf (.keyword .funcWord) "func").val, (leaf .identifier "f").val, (leaf .equal "=").val,
        (leaf .leftBrace "\x7b").val, (leaf .rightBrace "\x7d").val, (leaf .leftBrace "\x7b").val,
        (leaf (.keyword .returnWord) "return").val, (leaf .identifier "a").val] ++
      (List.replicate n [(leaf .dot ".").val, (leaf .identifier "b").val]).flatten ++
      [(leaf .rightBrace "\x7d").val] := by
  have htrailers : (List.replicate n (TrailerTree.member (leaf .dot ".")
      (leaf .identifier "b"))).flatMap (TrailerTree.tokens (E := exprPhrase (nestingLimit - 2))) =
        (List.replicate n [(leaf .dot ".").val, (leaf .identifier "b").val]).flatten := by
    rw [List.flatMap_def, List.map_replicate]
    rfl
  rw [← htrailers, ProgramTree.tokens, accessedProgram, List.flatMap_singleton]
  rfl

theorem ofTokens_accessedProgram (file n : Nat) :
    Program.ofTokens file (accessedProgram n).tokens = .ok ((accessedProgram n).value file) := by
  refine ofTokens_eq_ok.mpr ⟨accessedProgram n, ?_, rfl⟩
  have hkinds : ∀ t ∈ (accessedProgram n).tokens, (t.kind != .endOfText) = true := by
    rw [tokens_accessedProgram]
    simp only [List.forall_mem_append, List.forall_mem_cons, List.forall_mem_flatten]
    simp [leaf]
  exact (List.takeWhile_eq_self_iff.mpr hkinds).symm

theorem accessed_occursIn (file n : Nat) :
    (Expr.accessed n).OccursIn ((accessedProgram n).value file) := by
  refine ⟨Expr.accessed n, ?_, .self⟩
  rw [← value_accessedTree n (nestingLimit - 2)]
  have hroots : ((accessedProgram n).value file).roots =
      [(exprPhrase (nestingLimit - 2 + 1)).value (accessedTree n (nestingLimit - 2))] := rfl
  rw [hroots]
  exact List.mem_singleton_self _

end Grammar

/-- There are programs with expressions of any height. -/
theorem not_exists_height_bound :
    ¬ ∃ bound, ∀ (file : Nat) (tokens : List Token) (p : Program),
      Program.ofTokens file tokens = .ok p → ∀ e : Expr, e.OccursIn p → e.height ≤ bound := by
  rintro ⟨bound, hbound⟩
  have hle := hbound 0 _ _ (Grammar.ofTokens_accessedProgram 0 bound) _
    (Grammar.accessed_occursIn 0 bound)
  have hlt := (Expr.accessed bound).links_lt_height
  rw [Expr.links_accessed] at hlt
  omega

/-- The expressions of a program have no more levels than the limit allows. An expression is
higher than the chain that it begins is long, and if no chain in it has more than `k` links,
then the limit and `k` bound its height. -/
theorem height_le_of_links {file : Nat} {tokens : List Token} {p : Program}
    (h : Program.ofTokens file tokens = .ok p) {e : Expr} (he : e.OccursIn p) :
    e.nesting ≤ nestingLimit ∧ e.links < e.height ∧
      ∀ k, (∀ x : Expr, x.Within e → x.links ≤ k) → e.height ≤ (nestingLimit + 1) * (k + 1) := by
  have hnesting := Grammar.nesting_le_of_ofTokens h he
  refine ⟨hnesting, e.links_lt_height, fun k hk => ?_⟩
  exact Nat.le_trans (e.height_le hk) (Nat.mul_le_mul_right _ (Nat.succ_le_succ hnesting))

/-- A chain that has more links than there are levels. -/
theorem height_accessed_le :
    ∃ p, Program.ofTokens 0 (Grammar.accessedProgram 300).tokens = .ok p ∧
      (Expr.accessed 300).OccursIn p ∧ (Expr.accessed 300).nesting ≤ nestingLimit ∧
      300 < (Expr.accessed 300).height ∧
      (Expr.accessed 300).height ≤ (nestingLimit + 1) * (300 + 1) := by
  have hparse := Grammar.ofTokens_accessedProgram 0 300
  have hoccurs := Grammar.accessed_occursIn 0 300
  obtain ⟨hnesting, hlinks, hheight⟩ := height_le_of_links hparse hoccurs
  rw [Expr.links_accessed] at hlinks
  exact ⟨_, hparse, hoccurs, hnesting, hlinks,
    hheight 300 fun x hx => Expr.links_le_of_within_accessed hx⟩

end Scriptwright
