import Mathlib.Data.List.TakeWhile
import Scriptwright.Proofs.Compile.Concatenation
import Scriptwright.Proofs.Grammar.Height
import Scriptwright.Proofs.Grammar.Kinds

/-!
# Types are erased

A source may be stripped of any of its signatures, and a type that is no function type may
be given any other definition, without a change to the JavaScript text. Such an edit is
described along the derivation of the tokens, since that tells which tokens are a signature
and how deep a definition stands. The edited tokens have a derivation again, with the same
functions, statements and names of types.
-/

namespace Scriptwright.Grammar

section
variable {T : Phrase TypeExpr} {E : Phrase Expr} {B : Phrase Block}

/-- The tokens of a function before its body. -/
def FunctionTree.heading (d : FunctionTree B) : List Token :=
  d.start.val :: d.name.val :: d.equal.val :: d.opening.val ::
    (d.parameters.tokens (fun name => [name.val]) ++ [d.closing.val])

/-- The tokens of a definition before the type. -/
def DefinitionTree.heading (d : DefinitionTree T) : List Token :=
  [d.start.val, d.name.val, d.equal.val]

/-- The tokens of a block behind its last item. -/
def BlockTree.ending (d : BlockTree T E B) : List Token :=
  match d.result with
  | none => [d.closing.val]
  | some (start, result) => start.val :: (E.tokens result ++ [d.closing.val])

variable (R : B.Tree → List Token → Prop)

/-- The tokens of a function with an edit of its body, if `R` gives the edits of blocks. -/
inductive FunctionTree.Retyped : FunctionTree B → List Token → Prop
  | body {d : FunctionTree B} {ts : List Token} (h : R d.body ts) : Retyped d (d.heading ++ ts)

/-- A signature stays or is left out, and a type that declares a name stays or is replaced. -/
inductive DeclarationTree.Retyped : DeclarationTree T B → List Token → Prop
  | function {d : FunctionTree B} {ts : List Token} (h : d.Retyped R ts) : Retyped (.function d) ts
  | definition {d : DefinitionTree T} {plain : functionType? (T.value d.type) = none}
      (type : T.Tree) (h : functionType? (T.value type) = none) :
      Retyped (.typeName d plain) (d.heading ++ T.tokens type)
  | signed {definition : DefinitionTree T} {parameters : Interface} {result : TypeExpr}
      {signature : functionType? (T.value definition.type) = some (parameters, result)}
      {d : FunctionTree B} {sameName : definition.name.val.lexeme = d.name.val.lexeme}
      {ts : List Token} (h : d.Retyped R ts) :
      Retyped (.signed definition parameters result signature d sameName) (definition.tokens ++ ts)
  | unsigned {definition : DefinitionTree T} {parameters : Interface} {result : TypeExpr}
      {signature : functionType? (T.value definition.type) = some (parameters, result)}
      {d : FunctionTree B} {sameName : definition.name.val.lexeme = d.name.val.lexeme}
      {ts : List Token} (h : d.Retyped R ts) :
      Retyped (.signed definition parameters result signature d sameName) ts

inductive StatementTree.Retyped : StatementTree E B → List Token → Prop
  | assign (assignment : AssignmentTree E) : Retyped (.assign assignment) assignment.tokens
  | branch (start : Terminal (.keyword .ifWord)) (condition : ConditionTree) {thenBlock : B.Tree}
      {ts : List Token} (h : R thenBlock ts) :
      Retyped (.branch start condition thenBlock) (start.val :: (condition.tokens ++ ts))
  | branchElse (start : Terminal (.keyword .ifWord)) (condition : ConditionTree)
      {thenBlock : B.Tree} (otherwise : Terminal (.keyword .elseWord)) {elseBlock : B.Tree}
      {ts us : List Token} (hthen : R thenBlock ts) (helse : R elseBlock us) :
      Retyped (.branchElse start condition thenBlock otherwise elseBlock)
        (start.val :: (condition.tokens ++ (ts ++ otherwise.val :: us)))
  | whileLoop (start : Terminal (.keyword .whileWord)) (condition : E.Tree) {body : B.Tree}
      {ts : List Token} (h : R body ts) :
      Retyped (.whileLoop start condition body) (start.val :: (E.tokens condition ++ ts))
  | forLoop (start : Terminal (.keyword .forWord)) (initializer : AssignmentTree E)
      (first : Terminal .semicolon) (condition : E.Tree) (second : Terminal .semicolon)
      (increment : AssignmentTree E) {body : B.Tree} {ts : List Token} (h : R body ts) :
      Retyped (.forLoop start initializer first condition second increment body)
        (start.val :: (initializer.tokens ++ first.val :: (E.tokens condition ++
          second.val :: (increment.tokens ++ ts))))

inductive ItemTree.Retyped : ItemTree T E B → List Token → Prop
  | declaration {d : DeclarationTree T B} {ts : List Token} (h : d.Retyped R ts) :
      Retyped (.declaration d) ts
  | statement {d : StatementTree E B} {ts : List Token} (h : d.Retyped R ts) :
      Retyped (.statement d) ts

/-- A block whose items are edited each on its own. -/
inductive BlockTree.Retyped : BlockTree T E B → List Token → Prop
  | items {d : BlockTree T E B} {parts : List (List Token)}
      (h : List.Forall₂ (ItemTree.Retyped R) d.items parts) :
      Retyped d (d.opening.val :: (parts.flatten ++ d.ending))

end

/-- The edits of the types in a block. -/
def BlockRetyped : (n : Nat) → (blockPhrase n).Tree → List Token → Prop
  | 0 => fun d => d.elim
  | n + 1 => BlockTree.Retyped (T := typePhrase n) (E := exprPhrase n) (BlockRetyped n)

/-- The edits of the types in a program. -/
inductive ProgramTree.Retyped : ProgramTree → List Token → Prop
  | declarations {d : ProgramTree} {parts : List (List Token)}
      (h : List.Forall₂ (DeclarationTree.Retyped (BlockRetyped nestingLimit)) d.declarations
        parts) :
      Retyped d parts.flatten

/-- None of the tokens ends the text. -/
def Inner (ts : List Token) : Prop := ∀ t ∈ ts, t.kind ≠ .endOfText

@[simp] theorem inner_cons {t : Token} {ts : List Token} :
    Inner (t :: ts) ↔ t.kind ≠ .endOfText ∧ Inner ts := List.forall_mem_cons

@[simp] theorem inner_append {ts us : List Token} : Inner (ts ++ us) ↔ Inner ts ∧ Inner us :=
  List.forall_mem_append

theorem typePhrase_inner (n : Nat) (d : (typePhrase n).Tree) : Inner ((typePhrase n).tokens d) := by
  intro t ht hk
  have hspelled := typePhrase_spelled n d t ht
  rw [hk] at hspelled
  cases hspelled

/-- The tokens have a derivation that is the same in the sense of `Same`, and they do not
end the text if those of `d` do not. -/
structure Rederived {δ : Type} (tokens : δ → List Token) (Same : δ → δ → Prop) (d : δ)
    (ts : List Token) : Prop where
  tree : ∃ d', tokens d' = ts ∧ Same d d'
  inner : Inner (tokens d) → Inner ts

theorem rederived_flatten {δ : Type} {tokens : δ → List Token} {Same : δ → δ → Prop} {ds : List δ}
    {parts : List (List Token)} (h : List.Forall₂ (Rederived tokens Same) ds parts) :
    Rederived (List.flatMap tokens) (List.Forall₂ Same) ds parts.flatten := by
  induction h with
  | nil => exact ⟨⟨[], rfl, .nil⟩, id⟩
  | @cons d part ds parts hd _ ih =>
    obtain ⟨d', hd', hsame⟩ := hd.tree
    obtain ⟨ds', hds', hsames⟩ := ih.tree
    refine ⟨⟨d' :: ds', ?_, .cons hsame hsames⟩, ?_⟩
    · rw [List.flatMap_cons, List.flatten_cons, hd', hds']
    · rw [List.flatMap_cons, List.flatten_cons, inner_append, inner_append]
      exact fun h => ⟨hd.inner h.1, ih.inner h.2⟩

section
variable {T : Phrase TypeExpr} {E : Phrase Expr} {B : Phrase Block}
  {R : B.Tree → List Token → Prop}

/-- The edits of blocks leave the JavaScript text as it is. -/
def Harmless (B : Phrase Block) (R : B.Tree → List Token → Prop) : Prop :=
  ∀ d ts, R d ts → Rederived B.tokens
    (fun b b' => ∀ level, (B.value b').javaScript level = (B.value b).javaScript level) d ts

variable (hB : Harmless B R)
include hB

theorem FunctionTree.Retyped.rederived {d : FunctionTree B} {ts : List Token}
    (h : d.Retyped R ts) :
    Rederived FunctionTree.tokens (fun d d' => d'.name = d.name ∧ ∀ signature signature',
      (d.value signature).SameText (d'.value signature')) d ts := by
  cases h with
  | @body ts h =>
    have hbody := hB d.body ts h
    have htokens (b : B.Tree) :
        FunctionTree.tokens { d with body := b } = d.heading ++ B.tokens b := by
      simp [FunctionTree.tokens, FunctionTree.heading]
    obtain ⟨b, rfl, htext⟩ := hbody.tree
    refine ⟨⟨{ d with body := b }, htokens b, rfl, ?_⟩, ?_⟩
    · intro signature signature'
      refine Declaration.sameText_function htext ?_ _ _ _ _ _
      rw [List.forall₂_map_left_iff, List.forall₂_map_right_iff, List.forall₂_same]
      exact fun _ _ => rfl
    · rw [htokens d.body, inner_append, inner_append]
      exact fun h => ⟨h.1, hbody.inner h.2⟩

theorem DeclarationTree.Retyped.rederived (hT : ∀ d : T.Tree, Inner (T.tokens d))
    {d : DeclarationTree T B} {ts : List Token} (h : d.Retyped R ts) :
    Rederived DeclarationTree.tokens (fun d d' => d.value.SameText d'.value) d ts := by
  cases h with
  | function h =>
    have hfunction := h.rederived hB
    obtain ⟨d', hd', -, htext⟩ := hfunction.tree
    exact ⟨⟨.function d', hd', htext none none⟩, hfunction.inner⟩
  | @definition d plain type h =>
    have htokens : DeclarationTree.tokens (B := B) (.typeName d plain) =
        d.heading ++ T.tokens d.type := rfl
    refine ⟨⟨.typeName { d with type } h, rfl, fun level => rfl⟩, ?_⟩
    rw [htokens, inner_append, inner_append]
    exact fun hinner => ⟨hinner.1, hT type⟩
  | @signed definition parameters result signature d sameName ts h =>
    have hfunction := h.rederived hB
    obtain ⟨d', rfl, hname, htext⟩ := hfunction.tree
    rw [← hname] at sameName
    refine ⟨⟨.signed definition parameters result signature d' sameName, rfl, htext _ _⟩, ?_⟩
    rw [DeclarationTree.tokens, inner_append, inner_append]
    exact fun h => ⟨h.1, hfunction.inner h.2⟩
  | unsigned h =>
    have hfunction := h.rederived hB
    obtain ⟨d', hd', -, htext⟩ := hfunction.tree
    refine ⟨⟨.function d', hd', htext _ none⟩, ?_⟩
    rw [DeclarationTree.tokens, inner_append]
    exact fun h => hfunction.inner h.2

theorem StatementTree.Retyped.rederived {d : StatementTree E B} {ts : List Token}
    (h : d.Retyped R ts) :
    Rederived StatementTree.tokens (fun d d' => d.value.SameText d'.value) d ts := by
  cases h with
  | assign assignment => exact ⟨⟨.assign assignment, rfl, fun level => rfl⟩, id⟩
  | branch start condition h =>
    have hthen := hB _ _ h
    obtain ⟨thenBlock', rfl, htext⟩ := hthen.tree
    refine ⟨⟨.branch start condition thenBlock', rfl, fun level => ?_⟩, ?_⟩
    · simp only [value, Statement.javaScript, htext]
    · simp only [tokens, inner_cons, inner_append]
      exact fun h => ⟨h.1, h.2.1, hthen.inner h.2.2⟩
  | branchElse start condition otherwise h h' =>
    have hthen := hB _ _ h
    have helse := hB _ _ h'
    obtain ⟨thenBlock', rfl, hthenText⟩ := hthen.tree
    obtain ⟨elseBlock', rfl, helseText⟩ := helse.tree
    refine ⟨⟨.branchElse start condition thenBlock' otherwise elseBlock', rfl, fun level => ?_⟩, ?_⟩
    · simp only [value, Statement.javaScript, hthenText, helseText]
    · simp only [tokens, inner_cons, inner_append]
      exact fun h => ⟨h.1, h.2.1, hthen.inner h.2.2.1, h.2.2.2.1, helse.inner h.2.2.2.2⟩
  | whileLoop start condition h =>
    have hbody := hB _ _ h
    obtain ⟨body', rfl, htext⟩ := hbody.tree
    refine ⟨⟨.whileLoop start condition body', rfl, fun level => ?_⟩, ?_⟩
    · simp only [value, Statement.javaScript, htext]
    · simp only [tokens, inner_cons, inner_append]
      exact fun h => ⟨h.1, h.2.1, hbody.inner h.2.2⟩
  | forLoop start initializer first condition second increment h =>
    have hbody := hB _ _ h
    obtain ⟨body', rfl, htext⟩ := hbody.tree
    refine ⟨⟨.forLoop start initializer first condition second increment body', rfl,
      fun level => ?_⟩, ?_⟩
    · simp only [value, Statement.javaScript, htext]
    · simp only [tokens, inner_cons, inner_append]
      exact fun h => ⟨h.1, h.2.1, h.2.2.1, h.2.2.2.1, h.2.2.2.2.1, h.2.2.2.2.2.1,
        hbody.inner h.2.2.2.2.2.2⟩

theorem ItemTree.Retyped.rederived (hT : ∀ d : T.Tree, Inner (T.tokens d))
    {d : ItemTree T E B} {ts : List Token} (h : d.Retyped R ts) :
    Rederived ItemTree.tokens (fun d d' => d.value.SameText d'.value) d ts := by
  cases h with
  | declaration h =>
    have hdeclaration := h.rederived hB hT
    obtain ⟨d', hd', htext⟩ := hdeclaration.tree
    refine ⟨⟨.declaration d', hd', fun level => ?_⟩, hdeclaration.inner⟩
    simp only [value, Item.listJavaScript, htext level]
  | statement h =>
    have hstatement := h.rederived hB
    obtain ⟨d', hd', htext⟩ := hstatement.tree
    refine ⟨⟨.statement d', hd', fun level => ?_⟩, hstatement.inner⟩
    simp only [value, Item.listJavaScript, htext level]

theorem BlockTree.Retyped.rederived (hT : ∀ d : T.Tree, Inner (T.tokens d))
    {d : BlockTree T E B} {ts : List Token} (h : d.Retyped R ts) :
    Rederived BlockTree.tokens
      (fun b b' => ∀ level, b'.value.javaScript level = b.value.javaScript level) d ts := by
  cases h with
  | @items parts h =>
    have hitems := rederived_flatten (h.imp fun _ _ hitem => hitem.rederived hB hT)
    obtain ⟨items', hitems', htexts⟩ := hitems.tree
    have htokens (items : List (ItemTree T E B)) : BlockTree.tokens { d with items } =
        d.opening.val :: (items.flatMap ItemTree.tokens ++ d.ending) := rfl
    refine ⟨⟨{ d with items := items' }, ?_, fun level => ?_⟩, ?_⟩
    · rw [htokens items', hitems']
    · have hvalues : List.Forall₂ Item.SameText (d.items.map ItemTree.value)
          (items'.map ItemTree.value) := by
        rwa [List.forall₂_map_left_iff, List.forall₂_map_right_iff]
      have htext := Item.listJavaScript_of_sameText hvalues level
      simp only [value, Block.javaScript, htext]
    · rw [htokens d.items, inner_cons, inner_append, inner_cons, inner_append]
      exact fun h => ⟨h.1, hitems.inner h.2.1, h.2.2⟩

end

theorem blockRetyped_harmless (n : Nat) : Harmless (blockPhrase n) (BlockRetyped n) := by
  induction n with
  | zero => exact fun d => d.elim
  | succ n ih => exact fun d ts h => BlockTree.Retyped.rederived ih (typePhrase_inner n) h

theorem ProgramTree.Retyped.rederived {d : ProgramTree} {ts : List Token} (h : d.Retyped ts)
    (file : Nat) :
    Rederived ProgramTree.tokens
      (fun d d' => (d'.value file).javaScript = (d.value file).javaScript) d ts := by
  cases h with
  | declarations h =>
    have hdeclarations := rederived_flatten (h.imp fun _ _ hd =>
      hd.rederived (blockRetyped_harmless nestingLimit) (typePhrase_inner nestingLimit))
    obtain ⟨ds', hds', htexts⟩ := hdeclarations.tree
    refine ⟨⟨⟨ds'⟩, hds', ?_⟩, hdeclarations.inner⟩
    have hvalues : List.Forall₂ Declaration.SameText (d.declarations.map DeclarationTree.value)
        (ds'.map DeclarationTree.value) := by
      rwa [List.forall₂_map_left_iff, List.forall₂_map_right_iff]
    exact Program.javaScript_of_sameText hvalues _ _

end Scriptwright.Grammar

namespace Scriptwright
open Grammar

theorem Token.inner_body (tokens : List Token) : Inner (body tokens) := body_ne_endOfText tokens

/-- What stands before the end of the text may be replaced. -/
theorem Token.body_append_dropWhile {ts : List Token} (h : Inner ts) (tokens : List Token) :
    body (ts ++ tokens.dropWhile (·.kind != .endOfText)) = ts := by
  have hall : ∀ t ∈ ts, (t.kind != .endOfText) = true := fun t ht => bne_iff_ne.mpr (h t ht)
  have hrest : (tokens.dropWhile (·.kind != .endOfText)).takeWhile (·.kind != .endOfText) = [] := by
    rw [List.takeWhile_eq_nil_iff]
    exact List.dropWhile_get_zero_not _ tokens
  rw [body, List.takeWhile_append_of_pos hall, hrest, List.append_nil]

/-- The tokens of a program have a derivation. If signatures are deleted in it and the
definitions of types are replaced by others that are no function types, then the tokens are
those of a program again, and it has the same JavaScript text. -/
theorem javaScript_of_retyped {file : Nat} {tokens : List Token} {p : Program}
    (h : Program.ofTokens file tokens = .ok p) :
    (∃ d : ProgramTree, d.tokens = Token.body tokens) ∧
    ∀ d : ProgramTree, d.tokens = Token.body tokens → ∀ edited, d.Retyped edited →
      ∃ q, Program.ofTokens file (edited ++ tokens.dropWhile (·.kind != .endOfText)) = .ok q ∧
        q.javaScript = p.javaScript := by
  constructor
  · obtain ⟨d, htokens, -⟩ := ofTokens_eq_ok.mp h
    exact ⟨d, htokens⟩
  · intro d htokens edited hedited
    have hp : Program.ofTokens file tokens = .ok (d.value file) :=
      ofTokens_eq_ok.mpr ⟨d, htokens, rfl⟩
    cases h.symm.trans hp
    have hrederived := hedited.rederived file
    obtain ⟨d', rfl, htext⟩ := hrederived.tree
    have hinner : Inner d'.tokens := by
      apply hrederived.inner
      rw [htokens]
      exact Token.inner_body tokens
    have hbody := Token.body_append_dropWhile hinner tokens
    exact ⟨d'.value file, ofTokens_eq_ok.mpr ⟨d', hbody.symm, rfl⟩, htext⟩

namespace Grammar

/-- `type f = {}: n`, the type of a function, with a level to spare for its parts. -/
def signatureTree (n : Nat) : DefinitionTree (typePhrase (n + 2)) :=
  ⟨leaf (.keyword .typeWord) "type", leaf .identifier "f", leaf .equal "=",
    .function ⟨leaf .leftBrace "\x7b", .none, leaf .rightBrace "\x7d"⟩ (leaf .colon ":")
      (.simple (leaf .identifier "n"))⟩

/-- `func name = {} body` -/
def functionTree {B : Phrase Block} (name : String) (body : B.Tree) : FunctionTree B :=
  ⟨leaf (.keyword .funcWord) "func", leaf .identifier name, leaf .equal "=",
    leaf .leftBrace "\x7b", .none, leaf .rightBrace "\x7d", body⟩

/-- `{}` -/
def emptyBlock (n : Nat) : (blockPhrase (n + 1)).Tree :=
  ⟨leaf .leftBrace "\x7b", [], none, leaf .rightBrace "\x7d"⟩

/-- `{ type f = {}: n func f = {} {} }` -/
def signedBlock : (blockPhrase nestingLimit).Tree :=
  ⟨leaf .leftBrace "\x7b", [.declaration (.signed (signatureTree 125) _ _ rfl
    (functionTree "f" (emptyBlock 126)) rfl)], none, leaf .rightBrace "\x7d"⟩

/-- `type T = n func g = {} { type f = {}: n func f = {} {} }` -/
def typedProgram : ProgramTree :=
  ⟨[.typeName ⟨leaf (.keyword .typeWord) "type", leaf .identifier "T", leaf .equal "=",
      .simple (leaf .identifier "n")⟩ rfl,
    .function (functionTree "g" signedBlock)]⟩

/-- `func f = {} {}` -/
def unsignedTokens : List Token :=
  [(leaf (.keyword .funcWord) "func").val, (leaf .identifier "f").val, (leaf .equal "=").val,
    (leaf .leftBrace "\x7b").val, (leaf .rightBrace "\x7d").val, (leaf .leftBrace "\x7b").val,
    (leaf .rightBrace "\x7d").val]

/-- `type T = []n func g = {} { func f = {} {} }` -/
def retypedParts : List (List Token) :=
  [[(leaf (.keyword .typeWord) "type").val, (leaf .identifier "T").val, (leaf .equal "=").val,
      (leaf .emptyBrackets "[]").val, (leaf .identifier "n").val],
    [(leaf (.keyword .funcWord) "func").val, (leaf .identifier "g").val, (leaf .equal "=").val,
      (leaf .leftBrace "\x7b").val, (leaf .rightBrace "\x7d").val, (leaf .leftBrace "\x7b").val] ++
    unsignedTokens ++ [(leaf .rightBrace "\x7d").val]]

theorem signedBlock_retyped : BlockRetyped nestingLimit signedBlock
    ((leaf .leftBrace "\x7b").val ::
      ([unsignedTokens].flatten ++ [(leaf .rightBrace "\x7d").val])) := by
  have hempty : BlockRetyped 127 (emptyBlock 126)
      [(leaf .leftBrace "\x7b").val, (leaf .rightBrace "\x7d").val] :=
    @BlockTree.Retyped.items _ _ _ (BlockRetyped 126) (emptyBlock 126) [] .nil
  have hfunction : FunctionTree.Retyped (BlockRetyped 127) (functionTree "f" (emptyBlock 126))
      unsignedTokens := .body hempty
  exact @BlockTree.Retyped.items _ _ _ (BlockRetyped 127) signedBlock [unsignedTokens]
    (.cons (.declaration (.unsigned hfunction)) .nil)

theorem typedProgram_retyped : typedProgram.Retyped retypedParts.flatten := by
  apply ProgramTree.Retyped.declarations
  refine .cons ?_ (.cons ?_ .nil)
  · let type : (typePhrase nestingLimit).Tree :=
      .array (leaf .emptyBrackets "[]") (.simple (leaf .identifier "n"))
    exact .definition type rfl
  · exact .function (.body signedBlock_retyped)

end Grammar

/-- The definition of a type is replaced, and a function within another one loses its
signature. -/
theorem javaScript_of_retyped_nested :
    ∃ p q, Program.ofTokens 0 typedProgram.tokens = .ok p ∧
      Program.ofTokens 0 retypedParts.flatten = .ok q ∧
      p.javaScript = "// Type: T\nfunction g() \x7b\n  function f() \x7b\n  \x7d\n\n\x7d\n\n" ∧
      q.javaScript = p.javaScript := by
  have hbody : typedProgram.tokens = Token.body typedProgram.tokens := rfl
  have hp : Program.ofTokens 0 typedProgram.tokens = .ok (typedProgram.value 0) :=
    ofTokens_eq_ok.mpr ⟨typedProgram, hbody, rfl⟩
  obtain ⟨q, hq, htext⟩ := (javaScript_of_retyped hp).2 typedProgram hbody _ typedProgram_retyped
  exact ⟨typedProgram.value 0, q, hp, hq, rfl, htext⟩

end Scriptwright
