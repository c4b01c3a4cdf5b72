import Scriptwright.Proofs.Compile.Erasure
import Scriptwright.Proofs.Grammar.Kinds
import Scriptwright.Proofs.Grammar.Spans

/-!
# Branches that are read as loops

The condition of a branch is a chain with two operands. The block behind it leaves a level for
that chain, so a loop with this condition can stand wherever the branch can. Where the word
`while` takes the place of `if`, the tokens of a branch without an alternative are therefore
those of a loop with the same condition and the same body, and everything around is read as
before.

The word `if` stands nowhere but at the front of a branch. So the words of the tokens are the
branches of the program in turn, and the word that belongs to a branch is found by counting.
-/

namespace Scriptwright

mutual

/-- The number of branches in a declaration. -/
def Declaration.branchCount : Declaration → Nat
  | .function _ _ _ body _ => body.branchCount
  | .typeName _ _ _ => 0

def Block.branchCount : Block → Nat
  | .mk items _ _ => Item.listBranchCount items

def Item.listBranchCount : List Item → Nat
  | [] => 0
  | .declaration d :: items => d.branchCount + Item.listBranchCount items
  | .statement s :: items => s.branchCount + Item.listBranchCount items

def Statement.branchCount : Statement → Nat
  | .assign _ _ => 0
  | .branch _ thenBlock none _ => thenBlock.branchCount + 1
  | .branch _ thenBlock (some elseBlock) _ => thenBlock.branchCount + elseBlock.branchCount + 1
  | .whileLoop _ body _ => body.branchCount
  | .forLoop _ _ _ body _ => body.branchCount

end

namespace SyntaxNode

/-- The second node is the first with `s'` in one place of `s`, and `k` branches of the first
begin before that place. -/
inductive Exchanged (s s' : Statement) : Nat → SyntaxNode → SyntaxNode → Prop
  | here : Exchanged s s' 0 (.statement s) (.statement s')
  | body {k : Nat} {b b' : Block} (h : Exchanged s s' k (.block b) (.block b'))
      {name : String} {parameters : List Parameter} {result : Option TypeExpr} {span : Span} :
      Exchanged s s' k (.declaration (.function name parameters result b span))
        (.declaration (.function name parameters result b' span))
  | item {k : Nat} {i i' : Item} (h : Exchanged s s' k i.node i'.node)
      {items before after : List Item} (hitems : items = before ++ i :: after)
      {result : Option Expr} {span : Span} :
      Exchanged s s' (Item.listBranchCount before + k) (.block (.mk items result span))
        (.block (.mk (before ++ i' :: after) result span))
  | thenBlock {k : Nat} {b b' : Block} (h : Exchanged s s' k (.block b) (.block b'))
      {condition : Expr} {elseBlock : Option Block} {span : Span} :
      Exchanged s s' (1 + k) (.statement (.branch condition b elseBlock span))
        (.statement (.branch condition b' elseBlock span))
  | elseBlock {k : Nat} {b b' : Block} (h : Exchanged s s' k (.block b) (.block b'))
      {condition : Expr} {thenBlock : Block} {span : Span} :
      Exchanged s s' (1 + thenBlock.branchCount + k)
        (.statement (.branch condition thenBlock (some b) span))
        (.statement (.branch condition thenBlock (some b') span))
  | whileLoop {k : Nat} {b b' : Block} (h : Exchanged s s' k (.block b) (.block b'))
      {condition : Expr} {span : Span} :
      Exchanged s s' k (.statement (.whileLoop condition b span))
        (.statement (.whileLoop condition b' span))
  | forLoop {k : Nat} {b b' : Block} (h : Exchanged s s' k (.block b) (.block b'))
      {initializer increment : Option Assignment} {condition : Option Expr} {span : Span} :
      Exchanged s s' k (.statement (.forLoop initializer condition increment b span))
        (.statement (.forLoop initializer condition increment b' span))

theorem Exchanged.span_block {s s' : Statement} {k : Nat} {b b' : Block}
    (h : Exchanged s s' k (.block b) (.block b')) : b'.span = b.span := by
  cases h with
  | item => rfl

end SyntaxNode

/-- The second program is the first with `s'` in one place of `s`, and `k` branches of the first
begin before that place. -/
inductive Program.Exchanged (s s' : Statement) : Nat → Program → Program → Prop
  | declaration {k : Nat} {d d' : Declaration}
      (h : SyntaxNode.Exchanged s s' k (.declaration d) (.declaration d'))
      {declarations before after : List Declaration}
      (hdeclarations : declarations = before ++ d :: after) {span : Span} :
      Exchanged s s' (Item.listBranchCount (before.map .declaration) + k) ⟨declarations, span⟩
        ⟨before ++ d' :: after, span⟩

theorem Item.node_injective {i j : Item} (h : i.node = j.node) : i = j := by
  cases i <;> cases j <;> cases h <;> rfl

namespace Grammar

section
variable {T : Phrase TypeExpr} {E : Phrase Expr} {B : Phrase Block}

theorem FunctionTree.tokens_eq (d : FunctionTree B) : d.tokens = d.heading ++ B.tokens d.body := by
  simp [FunctionTree.tokens, FunctionTree.heading]

theorem BlockTree.tokens_eq (d : BlockTree T E B) :
    d.tokens = d.opening.val :: (d.items.flatMap ItemTree.tokens ++ d.ending) := rfl

end

def branchWords (ts : List Token) : Nat := ts.countP (·.kind == .keyword .ifWord)

/-- No branch begins with a token of this kind. -/
def branchless (k : Kind) : Bool := k != .keyword .ifWord

theorem branchWords_append (ts us : List Token) :
    branchWords (ts ++ us) = branchWords ts + branchWords us := List.countP_append

theorem branchWords_of_spelled {ts : List Token} (h : Spelled branchless ts) :
    branchWords ts = 0 := by
  rw [branchWords, List.countP_eq_zero]
  intro t ht hk
  have hless := h t ht
  rw [branchless, bne, hk] at hless
  cases hless

theorem branchWords_cons {t : Token} (h : branchless t.kind = true) (ts : List Token) :
    branchWords (t :: ts) = branchWords ts := by
  rw [← List.singleton_append, branchWords_append,
    branchWords_of_spelled (spelled_cons.mpr ⟨h, spelled_nil⟩), Nat.zero_add]

theorem branchWords_if (t : Terminal (.keyword .ifWord)) (ts : List Token) :
    branchWords (t.val :: ts) = 1 + branchWords ts := by
  rw [branchWords, List.countP_cons_of_pos (by simp [t.property]), Nat.add_comm]
  rfl

theorem branchless_of_typeKind (k : Kind) (h : typeKind k = true) : branchless k = true := by
  cases k with
  | keyword word => cases h
  | _ => rfl

theorem branchless_of_exprKind (k : Kind) (h : exprKind k = true) : branchless k = true := by
  cases k with
  | keyword word =>
    cases word with
    | ifWord => cases h
    | _ => rfl
  | _ => rfl

theorem ConditionTree.branchless (d : ConditionTree) : Spelled branchless d.tokens := by
  rw [tokens, spelled_cons, spelled_cons, spelled_cons]
  exact ⟨d.name.spelled rfl, branchless_of_exprKind _ (d.sign.spelled exprKind_of_comparison),
    branchless_of_exprKind _ d.right.spelled, spelled_nil⟩

theorem ConditionTree.branchWords_behind (d : ConditionTree) (start : Terminal (.keyword .ifWord)) :
    branchWords (start.val :: d.tokens) = 1 := by
  rw [branchWords_if, branchWords_of_spelled d.branchless]

theorem FunctionTree.branchless_heading {B : Phrase Block} (d : FunctionTree B) :
    Spelled branchless d.heading := by
  have hparameters : Spelled Grammar.branchless (d.parameters.tokens fun name => [name.val]) := by
    apply CommaList.spelled rfl
    intro name
    rw [spelled_cons]
    exact ⟨name.spelled rfl, spelled_nil⟩
  simp only [FunctionTree.heading, spelled_cons, spelled_append]
  exact ⟨d.start.spelled rfl, d.name.spelled rfl, d.equal.spelled rfl, d.opening.spelled rfl,
    hparameters, d.closing.spelled rfl, spelled_nil⟩

theorem DefinitionTree.branchless {T : Phrase TypeExpr} (d : DefinitionTree T)
    (htype : Spelled branchless (T.tokens d.type)) : Spelled branchless d.tokens := by
  rw [tokens, spelled_cons, spelled_cons, spelled_cons]
  exact ⟨d.start.spelled rfl, d.name.spelled rfl, d.equal.spelled rfl, htype⟩

theorem FunctionTree.branchWords_tokens {B : Phrase Block} (d : FunctionTree B)
    (hbody : branchWords (B.tokens d.body) = (B.value d.body).branchCount)
    (signature : Option (Interface × TypeExpr)) :
    branchWords d.tokens = (d.value signature).branchCount := by
  rw [d.tokens_eq, branchWords_append, branchWords_of_spelled d.branchless_heading, hbody,
    Nat.zero_add]
  rfl

/-- The tokens have as many words of branches as there are branches. -/
def branchesCounted : Relations where
  type ts _ := Spelled branchless ts
  expr ts _ := Spelled branchless ts
  assignment ts _ := Spelled branchless ts
  statement ts s := branchWords ts = s.branchCount
  declaration ts d := branchWords ts = d.branchCount
  block ts b := branchWords ts = b.branchCount

theorem branchWords_flatMap {δ : Type} {tokens : δ → List Token} {item : δ → Item} {ds : List δ}
    (h : ∀ d ∈ ds, branchesCounted.item (tokens d) (item d)) :
    branchWords (ds.flatMap tokens) = Item.listBranchCount (ds.map item) := by
  induction ds with
  | nil => rfl
  | cons d ds ih =>
    obtain ⟨hd, hds⟩ := List.forall_mem_cons.mp h
    rw [List.flatMap_cons, List.map_cons, branchWords_append, ih hds]
    cases hitem : item d with
    | declaration declaration =>
      rw [hitem] at hd
      exact congrArg (· + _) hd
    | statement s =>
      rw [hitem] at hd
      exact congrArg (· + _) hd

theorem branchWords_block (opening : Terminal .leftBrace) {items : List (List Token × Item)}
    (hitems : ∀ i ∈ items, branchesCounted.item i.1 i.2) {ending : List Token}
    (hending : Spelled branchless ending) (result : Option Expr) (span : Span) :
    branchWords (opening.val :: (items.flatMap (·.1) ++ ending)) =
      (Block.mk (items.map (·.2)) result span).branchCount := by
  rw [branchWords_cons (opening.spelled rfl), branchWords_append, branchWords_flatMap hitems,
    branchWords_of_spelled hending]
  rfl

theorem branchesCounted_closed : branchesCounted.Closed where
  condition d := d.branchless
  assignment name equal {_ _} h _ :=
    spelled_cons.mpr ⟨name.spelled rfl, spelled_cons.mpr ⟨equal.spelled rfl, h⟩⟩
  assign h _ := branchWords_of_spelled h
  branch start {_ _ _ _} hcondition hthen _ := by
    dsimp only [branchesCounted] at hthen ⊢
    rw [branchWords_if, branchWords_append, branchWords_of_spelled hcondition, hthen, Nat.zero_add,
      Nat.add_comm]
    rfl
  branchElse start otherwise {_ _ _ _ _ _} hcondition hthen helse _ := by
    dsimp only [branchesCounted] at hthen helse ⊢
    rw [branchWords_if, branchWords_append, branchWords_append,
      branchWords_of_spelled hcondition, hthen, branchWords_cons (otherwise.spelled rfl), helse,
      Nat.zero_add, Nat.add_comm]
    rfl
  whileLoop start {_ _ _ _} hcondition hbody _ := by
    dsimp only [branchesCounted] at hbody ⊢
    rw [branchWords_cons (start.spelled rfl), branchWords_append,
      branchWords_of_spelled hcondition, hbody, Nat.zero_add]
    rfl
  forLoop start first second {_ _ _ _ _ _ _ _} hinitializer hcondition hincrement hbody _ := by
    dsimp only [branchesCounted] at hbody ⊢
    rw [branchWords_cons (start.spelled rfl), branchWords_append,
      branchWords_of_spelled hinitializer, branchWords_cons (first.spelled rfl),
      branchWords_append, branchWords_of_spelled hcondition,
      branchWords_cons (second.spelled rfl), branchWords_append,
      branchWords_of_spelled hincrement, hbody]
    simp only [Nat.zero_add]
    rfl
  function d hbody := d.branchWords_tokens hbody none
  typeName d htype := branchWords_of_spelled (d.branchless htype)
  signed {_ _} definition d {_ _} _ htype hbody := by
    have hfunction := d.branchWords_tokens hbody
    dsimp only [branchesCounted]
    rw [branchWords_append, branchWords_of_spelled (definition.branchless htype), Nat.zero_add]
    exact hfunction _
  block opening closing {_} hitems span := by
    have hending : Spelled branchless [closing.val] :=
      spelled_cons.mpr ⟨closing.spelled rfl, spelled_nil⟩
    exact branchWords_block opening hitems hending none span
  returning opening closing start {_} hitems {ts e} hresult span := by
    have hending : Spelled branchless (start.val :: (ts ++ [closing.val])) := by
      rw [spelled_cons, spelled_append, spelled_cons]
      exact ⟨start.spelled rfl, hresult, closing.spelled rfl, spelled_nil⟩
    exact branchWords_block opening hitems hending (some e) span

theorem typePhrase_branchless {n : Nat} (d : (typePhrase n).Tree) :
    Spelled branchless ((typePhrase n).tokens d) :=
  (typePhrase_spelled n d).mono branchless_of_typeKind

theorem exprPhrase_branchless {n : Nat} (d : (exprPhrase n).Tree) :
    Spelled branchless ((exprPhrase n).tokens d) :=
  ((phrases_spelled n).1 d).mono branchless_of_exprKind

theorem blockPhrase_branchWords (n : Nat) : (blockPhrase n).Relates branchesCounted.block :=
  branchesCounted_closed.blockPhrase (fun _ _ => typePhrase_branchless)
    fun _ _ => exprPhrase_branchless

/-- Behind `k` words of branches the tokens of the tree have one more, which is where the span of
a branch with the given body begins. With the word of a loop in its place they are the tokens of
a tree that denotes `n`. -/
def Reread {δ ν : Type} (tokens : δ → List Token) (node : δ → ν) (body : Block) (span : Span)
    (k : Nat) (d : δ) (n : ν) : Prop :=
  ∃ before t after, tokens d = before ++ t :: after ∧ t.kind = .keyword .ifWord ∧
    branchWords before = k ∧ span = t.span.cover body.span ∧
    ∀ t' : Token, t'.kind = .keyword .whileWord → t'.span = t.span →
      ∃ d', tokens d' = before ++ t' :: after ∧ node d' = n

/-- A tree is read again inside a larger one. -/
theorem Reread.inside {δ ε μ ν : Type} {tokens : δ → List Token} {node : δ → μ} {body : Block}
    {span : Span} {k : Nat} {d : δ} {n : μ} (h : Reread tokens node body span k d n)
    {tokens' : ε → List Token} {node' : ε → ν} {n' : ν} (f : δ → ε)
    {front : List Token} (back : List Token) {j : Nat} (hfront : branchWords front = j)
    (htokens : ∀ d, tokens' (f d) = front ++ (tokens d ++ back))
    (hnode : ∀ d, node d = n → node' (f d) = n') :
    Reread tokens' node' body span (j + k) (f d) n' := by
  obtain ⟨before, t, after, hd, hkind, hk, hspan, hloop⟩ := h
  refine ⟨front ++ before, t, after ++ back, ?_, hkind, ?_, hspan, ?_⟩
  · rw [htokens, hd, List.append_assoc, List.append_assoc, List.cons_append]
  · rw [branchWords_append, hfront, hk]
  · intro t' hkind' hspan'
    obtain ⟨d', hd', hn⟩ := hloop t' hkind' hspan'
    refine ⟨f d', ?_, hnode d' hn⟩
    rw [htokens, hd', List.append_assoc, List.append_assoc, List.cons_append]

/-- The condition of a branch is an expression, and it fits wherever a block fits. -/
theorem ConditionTree.exists_expr (d : ConditionTree) {n : Nat} (b : (blockPhrase n).Tree) :
    ∃ e : (exprPhrase n).Tree,
      (exprPhrase n).tokens e = d.tokens ∧ (exprPhrase n).value e = d.value := by
  have hsign := d.sign.spells
  rw [comparison?_eq, Option.filter_eq_some_iff] at hsign
  -- The block takes a level itself, so there is one for the chain too.
  cases n with
  | zero => exact b.elim
  | succ n =>
    exact ⟨.chain (.plain (.term (nameTree d.name)) []) rfl
      ⟨d.sign.token, d.sign.op, hsign.1⟩ (.plain (.term d.right) []) [], rfl, rfl⟩

/-- One branch without an alternative has become a loop. -/
abbrev Looped (condition : Expr) (body : Block) (span : Span) :
    Nat → SyntaxNode → SyntaxNode → Prop :=
  SyntaxNode.Exchanged (.branch condition body none span) (.whileLoop condition body span)

section
variable {condition : Expr} {body : Block} {span : Span}
variable {T : Phrase TypeExpr} {E : Phrase Expr} {B : Phrase Block}

/-- Wherever a branch of the blocks becomes a loop, its word is found. -/
def RereadsBlocks (condition : Expr) (body : Block) (span : Span) (B : Phrase Block) : Prop :=
  ∀ (b : B.Tree) (k : Nat) (n : SyntaxNode),
    Looped condition body span k (.block (B.value b)) n →
    Reread B.tokens (fun b => .block (B.value b)) body span k b n

variable (hT : T.Relates branchesCounted.type) (hE : E.Relates branchesCounted.expr)
  (hC : ∀ (d : ConditionTree), B.Tree → ∃ e : E.Tree, E.tokens e = d.tokens ∧ E.value e = d.value)
  (hcount : B.Relates branchesCounted.block) (hB : RereadsBlocks condition body span B)

section
include hB

/-- A block is read again as a part of a larger tree. Its span does not change, so the span of the
larger tree, which ends with the block, does not change either. -/
theorem RereadsBlocks.inside {ε : Type} {tokens : ε → List Token} {node : ε → SyntaxNode} {k : Nat}
    {b : B.Tree} {b' : Block}
    (h : Looped condition body span k (.block (B.value b)) (.block b'))
    (f : B.Tree → ε) {n : SyntaxNode} {front : List Token} (back : List Token) {j : Nat}
    (hfront : branchWords front = j) (htokens : ∀ c, tokens (f c) = front ++ (B.tokens c ++ back))
    (hnode : ∀ c, B.value c = b' → (B.value c).span = (B.value b).span → node (f c) = n) :
    Reread tokens node body span (j + k) (f b) n := by
  refine (hB b k _ h).inside f back hfront htokens fun c hc => ?_
  have hvalue : B.value c = b' := SyntaxNode.block.inj hc
  exact hnode c hvalue (hvalue ▸ h.span_block)

include hE hC hcount in
theorem StatementTree.reread {d : StatementTree E B} {k : Nat} {n : SyntaxNode}
    (h : Looped condition body span k (.statement d.value) n) :
    Reread StatementTree.tokens (fun d => .statement d.value) body span k d n := by
  cases d with
  | assign assignment => cases h
  | branch start condition thenBlock =>
    simp only [value] at h
    cases h with
    | here =>
      -- The word of this statement is the only token that changes.
      obtain ⟨e, htokens, hvalue⟩ := hC condition thenBlock
      refine ⟨[], start.val, _, rfl, start.property, rfl, rfl, fun t' hkind hspan => ?_⟩
      refine ⟨.whileLoop ⟨t', hkind⟩ e thenBlock, ?_, ?_⟩
      · rw [tokens, htokens, List.nil_append]
      · simp only [value, hvalue, hspan]
    | thenBlock h =>
      refine hB.inside h (StatementTree.branch start condition) []
        (condition.branchWords_behind start) (fun c => ?_) ?_
      · rw [tokens, List.append_nil, List.cons_append]
      · rintro c rfl hspan
        simp only [value, hspan]
  | branchElse start condition thenBlock otherwise elseBlock =>
    simp only [value] at h
    cases h with
    | thenBlock h =>
      refine hB.inside h (StatementTree.branchElse start condition · otherwise elseBlock)
        (otherwise.val :: B.tokens elseBlock) (condition.branchWords_behind start) (fun c => ?_) ?_
      · rw [tokens, List.cons_append]
      · rintro c rfl _
        rfl
    | elseBlock h =>
      have hfront : branchWords (start.val :: (condition.tokens ++
          (B.tokens thenBlock ++ [otherwise.val]))) = 1 + (B.value thenBlock).branchCount := by
        rw [branchWords_if, branchWords_append, branchWords_append,
          branchWords_of_spelled condition.branchless, hcount,
          branchWords_cons (otherwise.spelled rfl)]
        simp [branchWords]
      refine hB.inside h (StatementTree.branchElse start condition thenBlock otherwise) [] hfront
        (fun c => ?_) ?_
      · simp [tokens]
      · rintro c rfl hspan
        simp only [value, hspan]
  | whileLoop start condition body =>
    simp only [value] at h
    cases h with
    | whileLoop h =>
      have hfront : branchWords (start.val :: E.tokens condition) = 0 := by
        rw [branchWords_cons (start.spelled rfl), branchWords_of_spelled (hE condition)]
      rw [← Nat.zero_add k]
      refine hB.inside h (StatementTree.whileLoop start condition) [] hfront (fun c => ?_) ?_
      · rw [tokens, List.append_nil, List.cons_append]
      · rintro c rfl hspan
        simp only [value, hspan]
  | forLoop start initializer first condition second increment body =>
    simp only [value] at h
    cases h with
    | forLoop h =>
      have hfront : branchWords (start.val :: (initializer.tokens ++ first.val ::
          (E.tokens condition ++ second.val :: increment.tokens))) = 0 := by
        apply branchWords_of_spelled
        simp only [spelled_cons, spelled_append]
        exact ⟨start.spelled rfl, initializer.relates branchesCounted_closed hE,
          first.spelled rfl, hE condition, second.spelled rfl,
          increment.relates branchesCounted_closed hE⟩
      rw [← Nat.zero_add k]
      refine hB.inside h
        (StatementTree.forLoop start initializer first condition second increment) [] hfront
        (fun c => ?_) ?_
      · simp [tokens]
      · rintro c rfl hspan
        simp only [value, hspan]

include hT in
theorem DeclarationTree.reread {d : DeclarationTree T B} {k : Nat} {n : SyntaxNode}
    (h : Looped condition body span k (.declaration d.value) n) :
    Reread DeclarationTree.tokens (fun d => .declaration d.value) body span k d n := by
  cases d with
  | function d =>
    simp only [value, FunctionTree.value] at h
    cases h with
    | body h =>
      rw [← Nat.zero_add k]
      refine hB.inside h (fun b => DeclarationTree.function { d with body := b }) []
        (branchWords_of_spelled d.branchless_heading) (fun c => ?_) ?_
      · rw [tokens, FunctionTree.tokens_eq, List.append_nil]
        rfl
      · rintro c rfl hspan
        simp only [value, FunctionTree.value, hspan]
  | typeName definition plain => cases h
  | signed definition parameters result signature d sameName =>
    simp only [value, FunctionTree.value] at h
    cases h with
    | body h =>
      have hfront : branchWords (definition.tokens ++ d.heading) = 0 := by
        apply branchWords_of_spelled
        exact spelled_append.mpr ⟨definition.branchless (hT definition.type), d.branchless_heading⟩
      rw [← Nat.zero_add k]
      refine hB.inside h (fun b => DeclarationTree.signed definition parameters result signature
        { d with body := b } sameName) [] hfront (fun c => ?_) ?_
      · rw [tokens, FunctionTree.tokens_eq, List.append_nil, List.append_assoc]
        rfl
      · rintro c rfl hspan
        simp only [value, FunctionTree.value, hspan]

include hT hE hC hcount in
theorem ItemTree.reread {d : ItemTree T E B} {k : Nat} {n : SyntaxNode}
    (h : Looped condition body span k d.value.node n) :
    Reread ItemTree.tokens (fun d => d.value.node) body span k d n := by
  have hnil : branchWords [] = 0 := rfl
  rw [← Nat.zero_add k]
  cases d with
  | declaration d =>
    exact (d.reread hT hB h).inside ItemTree.declaration [] hnil
      (fun c => (List.append_nil c.tokens).symm) fun c hc => hc
  | statement d =>
    exact (d.reread hE hC hcount hB h).inside ItemTree.statement [] hnil
      (fun c => (List.append_nil c.tokens).symm) fun c hc => hc

include hT hE hC hcount in
theorem BlockTree.reread {d : BlockTree T E B} {k : Nat} {n : SyntaxNode}
    (h : Looped condition body span k (.block d.value) n) :
    Reread BlockTree.tokens (fun d => .block d.value) body span k d n := by
  obtain ⟨opening, items, result, closing⟩ := d
  simp only [value] at h
  cases h with
  | item h hitems =>
    obtain ⟨front, behind, rfl, rfl, hbehind⟩ := List.map_eq_append_iff.mp hitems
    obtain ⟨d, back, rfl, rfl, rfl⟩ := List.map_eq_cons_iff.mp hbehind
    have hfront : branchWords (opening.val :: front.flatMap ItemTree.tokens) =
        Item.listBranchCount (front.map ItemTree.value) := by
      rw [branchWords_cons (opening.spelled rfl)]
      exact branchWords_flatMap fun d _ => d.relates branchesCounted_closed hT hE hcount
    refine (d.reread hT hE hC hcount hB h).inside
      (fun c => (⟨opening, front ++ c :: back, result, closing⟩ : BlockTree T E B))
      (back.flatMap ItemTree.tokens ++ BlockTree.ending ⟨opening, front, result, closing⟩) hfront
      (fun c => ?_) fun c hc => ?_
    · simp [tokens_eq, BlockTree.ending]
    · have hvalue := Item.node_injective hc
      simp only [value, List.map_append, List.map_cons, hvalue]

end

end

theorem blockPhrase_reread {condition : Expr} {body : Block} {span : Span} (n : Nat) :
    RereadsBlocks condition body span (blockPhrase n) := by
  induction n with
  | zero => exact fun b => b.elim
  | succ n ih =>
    exact fun b k m h => BlockTree.reread typePhrase_branchless exprPhrase_branchless
      (fun d b => d.exists_expr b) (blockPhrase_branchWords n) ih h

theorem ProgramTree.reread {condition : Expr} {body : Block} {span : Span} {d : ProgramTree}
    {file k : Nat} {p : Program}
    (h : Program.Exchanged (.branch condition body none span) (.whileLoop condition body span) k
      (d.value file) p) :
    Reread ProgramTree.tokens (fun d => d.declarations.map DeclarationTree.value) body span k d
      p.declarations := by
  obtain ⟨ds⟩ := d
  simp only [value] at h
  cases h with
  | declaration h hdeclarations =>
    obtain ⟨front, behind, rfl, rfl, hbehind⟩ := List.map_eq_append_iff.mp hdeclarations
    obtain ⟨d, back, rfl, rfl, rfl⟩ := List.map_eq_cons_iff.mp hbehind
    have hfront : branchWords (front.flatMap DeclarationTree.tokens) =
        Item.listBranchCount ((front.map DeclarationTree.value).map .declaration) := by
      rw [List.map_map]
      exact branchWords_flatMap fun d _ => d.relates branchesCounted_closed
        typePhrase_branchless (blockPhrase_branchWords nestingLimit)
    refine (d.reread typePhrase_branchless (blockPhrase_reread nestingLimit) h).inside
      (fun c => (⟨front ++ c :: back⟩ : ProgramTree)) (back.flatMap DeclarationTree.tokens)
      hfront (fun c => ?_) fun c hc => ?_
    · rw [tokens, List.flatMap_append, List.flatMap_cons]
    · have hvalue := SyntaxNode.declaration.inj hc
      simp only [List.map_append, List.map_cons, hvalue]

end Grammar

open Grammar

theorem Token.lastStop_congr (before after : List Token) {t t' : Token} (h : t'.span = t.span) :
    lastStop (before ++ t' :: after) = lastStop (before ++ t :: after) := by
  simp only [lastStop, ← List.getLast?_map, List.map_append, List.map_cons, h]

/-- If one branch without an alternative becomes a loop, wherever it stands in a program, then
the tokens with the word `while` in the place of its `if` are those of the new program. -/
theorem Program.ofTokens_loop_of_branch {file : Nat} {tokens : List Token} {p p' : Program}
    (hp : Program.ofTokens file tokens = .ok p) {condition : Expr} {body : Block} {span : Span}
    {k : Nat} (h : Program.Exchanged (.branch condition body none span)
      (.whileLoop condition body span) k p p') :
    ∃ before t after, tokens = before ++ t :: after ∧ t.kind = .keyword .ifWord ∧
      branchWords before = k ∧ span = t.span.cover body.span ∧
      ∀ t' : Token, t'.kind = .keyword .whileWord → t'.span = t.span →
        Program.ofTokens file (before ++ t' :: after) = .ok p' := by
  obtain ⟨d, hd, rfl⟩ := ofTokens_eq_ok.mp hp
  have hspan : p'.span = (d.value file).span := by
    cases h
    rfl
  obtain ⟨before, t, after, htokens, hkind, hk, hcover, hloop⟩ := ProgramTree.reread h
  refine ⟨before, t, after ++ tokens.dropWhile (·.kind != .endOfText), ?_, hkind, hk, hcover, ?_⟩
  · rw [← List.cons_append, ← List.append_assoc, ← htokens, hd]
    exact List.takeWhile_append_dropWhile.symm
  · intro t' hkind' hspan'
    obtain ⟨d', hd', hdeclarations⟩ := hloop t' hkind' hspan'
    have hinner : Inner (before ++ t' :: after) := by
      have hbody := Token.inner_body tokens
      rw [← hd, htokens, inner_append, inner_cons] at hbody
      rw [inner_append, inner_cons, hkind']
      exact ⟨hbody.1, by decide, hbody.2.2⟩
    refine ofTokens_eq_ok.mpr ⟨d', ?_, ?_⟩
    · rw [hd', ← List.cons_append, ← List.append_assoc, Token.body_append_dropWhile hinner]
    · have hstop : Token.lastStop d'.tokens = Token.lastStop d.tokens := by
        rw [hd', htokens, Token.lastStop_congr before after hspan']
      obtain ⟨declarations, span⟩ := p'
      cases hspan
      rw [ProgramTree.value, hstop]
      exact congrArg (Program.mk · _) hdeclarations

/-- Tokens of the given kinds, one byte each. -/
def tokensOfKinds (kinds : List Kind) : List Token :=
  kinds.zipIdx.map fun (kind, i) => ⟨kind, "x", .none, ⟨0, i, i + 1⟩⟩

/-- A function with a statement in the alternative of a branch. -/
def innerStatement (word : Keyword) : List Token :=
  tokensOfKinds [.keyword .funcWord, .identifier, .equal, .leftBrace, .rightBrace, .leftBrace,
    .keyword .ifWord, .identifier, .equalEqual, .identifier, .leftBrace, .rightBrace,
    .keyword .elseWord, .leftBrace, .keyword word, .identifier, .less, .identifier, .leftBrace,
    .rightBrace, .rightBrace, .rightBrace]

def innerCondition (start : Nat) (op : BinaryOp) : Expr :=
  .binary (.identifier "x" ⟨0, start, start + 1⟩) op (.identifier "x" ⟨0, start + 2, start + 3⟩)
    ⟨0, start, start + 3⟩

def innerProgram (s : Statement) : Program :=
  ⟨[.function "x" [] none
    (.mk [.statement (.branch (innerCondition 7 .eq) (.mk [] none ⟨0, 10, 12⟩)
      (some (.mk [.statement s] none ⟨0, 13, 21⟩)) ⟨0, 6, 21⟩)] none ⟨0, 5, 22⟩) ⟨0, 0, 22⟩],
    ⟨0, 0, 22⟩⟩

theorem Program.ofTokens_loop_of_inner_branch :
    Program.ofTokens 0 (innerStatement .ifWord) =
        .ok (innerProgram (.branch (innerCondition 15 .less) (.mk [] none ⟨0, 18, 20⟩) none
          ⟨0, 14, 20⟩)) ∧
      ∃ before t after, innerStatement .ifWord = before ++ t :: after ∧
        t.kind = .keyword .ifWord ∧ branchWords before = 1 ∧
        ⟨0, 14, 20⟩ = t.span.cover ⟨0, 18, 20⟩ ∧
        ∀ t' : Token, t'.kind = .keyword .whileWord → t'.span = t.span →
          Program.ofTokens 0 (before ++ t' :: after) =
            .ok (innerProgram (.whileLoop (innerCondition 15 .less) (.mk [] none ⟨0, 18, 20⟩)
              ⟨0, 14, 20⟩)) := by
  have hp : Program.ofTokens 0 (innerStatement .ifWord) =
      .ok (innerProgram (.branch (innerCondition 15 .less) (.mk [] none ⟨0, 18, 20⟩) none
        ⟨0, 14, 20⟩)) := by
    cbv
  have hsingle {s s' t t' : Statement} {k : Nat}
      (h : SyntaxNode.Exchanged s s' k (.statement t) (.statement t')) (span : Span) :
      SyntaxNode.Exchanged s s' k (.block (.mk [.statement t] none span))
        (.block (.mk [.statement t'] none span)) := by
    have hitem := @SyntaxNode.Exchanged.item s s' k (.statement t) (.statement t') h
      [.statement t] [] [] rfl none span
    rwa [Item.listBranchCount, Nat.zero_add] at hitem
  have hinner (s s' : Statement) : Program.Exchanged s s' 1 (innerProgram s) (innerProgram s') := by
    have helse := @SyntaxNode.Exchanged.elseBlock s s' 0 _ _ (hsingle .here ⟨0, 13, 21⟩)
      (innerCondition 7 .eq) (.mk [] none ⟨0, 10, 12⟩) ⟨0, 6, 21⟩
    exact @Program.Exchanged.declaration s s' 1 _ _ (.body (hsingle helse _)) _ [] [] rfl _
  exact ⟨hp, Program.ofTokens_loop_of_branch hp (hinner _ _)⟩

end Scriptwright
