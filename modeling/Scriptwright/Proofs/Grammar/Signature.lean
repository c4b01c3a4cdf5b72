import Scriptwright.Proofs.Grammar.Kinds
import Scriptwright.Proofs.Grammar.Unambiguous

/-!
# Signatures

A signature is a definition whose type is a function type. Which tokens are a signature can
be said without a derivation of the program around them: a type that fits into some number
of levels is the same type with more of them, and tokens that spell a type spell no other
one. The word `type` stands nowhere but at its front, so tokens end with one signature at
most.
-/

namespace Scriptwright.Grammar

/-- `"type" IDENT "=" shape ":" type` -/
structure SignatureTree (T : Phrase TypeExpr) where
  start : Terminal (.keyword .typeWord)
  name : Terminal .identifier
  equal : Terminal .equal
  parameters : ShapeTree T
  colon : Terminal .colon
  result : T.Tree

namespace SignatureTree
variable {T : Phrase TypeExpr}

def type (s : SignatureTree T) : TypeTree T := .function s.parameters s.colon s.result

def tokens (s : SignatureTree T) : List Token :=
  s.start.val :: s.name.val :: s.equal.val :: s.type.tokens

/-- The properties as they stand between the braces. -/
def written (s : SignatureTree T) : List (String × TypeExpr) :=
  s.parameters.properties.items.map PropertyTree.value

def span (s : SignatureTree T) : Span := s.start.val.span.cover s.type.value.span

end SignatureTree

/-- Every tree of the first phrase has one of the second with the same tokens and node. -/
def Phrase.Embeds {α : Type} (P Q : Phrase α) : Prop :=
  ∀ d : P.Tree, ∃ e : Q.Tree, Q.tokens e = P.tokens d ∧ Q.value e = P.value d

theorem CommaList.embeds {α δ ε : Type} {tokens : δ → List Token} {tokens' : ε → List Token}
    {value : δ → α} {value' : ε → α}
    (h : ∀ d, ∃ e, tokens' e = tokens d ∧ value' e = value d) (ds : CommaList δ) :
    ∃ es : CommaList ε, es.tokens tokens' = ds.tokens tokens ∧
      es.items.map value' = ds.items.map value := by
  choose f htokens hvalue using h
  cases ds with
  | none => exact ⟨.none, rfl, rfl⟩
  | some first more =>
    refine ⟨.some (f first) (more.map fun item => (item.1, f item.2)), ?_, ?_⟩
    · unfold CommaList.tokens CommaList.moreTokens
      simp only [List.flatMap_map, htokens]
    · simp [CommaList.items, hvalue, Function.comp_def]

section
variable {T U : Phrase TypeExpr} (h : T.Embeds U)
include h

theorem PropertyTree.embeds (d : PropertyTree T) :
    ∃ e : PropertyTree U, e.tokens = d.tokens ∧ e.value = d.value := by
  obtain ⟨type, htokens, hvalue⟩ := h d.type
  refine ⟨⟨d.name, d.colon, type⟩, ?_, ?_⟩
  · simp only [PropertyTree.tokens, htokens]
  · simp only [PropertyTree.value, hvalue]

theorem ShapeTree.embeds (d : ShapeTree T) :
    ∃ e : ShapeTree U, e.tokens = d.tokens ∧ e.value = d.value ∧ e.opening = d.opening := by
  obtain ⟨properties, htokens, hvalue⟩ := CommaList.embeds (PropertyTree.embeds h) d.properties
  refine ⟨⟨d.opening, properties, d.closing⟩, ?_, ?_, rfl⟩
  · simp only [ShapeTree.tokens, htokens]
  · simp only [ShapeTree.value, hvalue]

theorem TypeTree.embeds (d : TypeTree T) :
    ∃ e : TypeTree U, e.tokens = d.tokens ∧ e.value = d.value := by
  cases d with
  | array brackets element =>
    obtain ⟨e, htokens, hvalue⟩ := h element
    refine ⟨.array brackets e, ?_, ?_⟩
    · simp only [TypeTree.tokens, htokens]
    · simp only [TypeTree.value, hvalue]
  | interface shape =>
    obtain ⟨e, htokens, hvalue, -⟩ := shape.embeds h
    refine ⟨.interface e, htokens, ?_⟩
    simp only [TypeTree.value, hvalue]
  | function parameters colon result =>
    obtain ⟨e, htokens, hvalue, hopening⟩ := parameters.embeds h
    obtain ⟨r, hresult, hr⟩ := h result
    refine ⟨.function e colon r, ?_, ?_⟩
    · simp only [TypeTree.tokens, htokens, hresult]
    · simp only [TypeTree.value, hvalue, hr, hopening]
  | simple name => exact ⟨.simple name, rfl, rfl⟩

end

theorem typePhrase_embeds_succ (n : Nat) : (typePhrase n).Embeds (typePhrase (n + 1)) := by
  induction n with
  | zero => exact fun d => d.elim
  | succ n ih => exact TypeTree.embeds ih

theorem typePhrase_embeds {n m : Nat} (h : n ≤ m) : (typePhrase n).Embeds (typePhrase m) := by
  induction h with
  | refl => exact fun d => ⟨d, rfl, rfl⟩
  | step _ ih =>
    intro d
    obtain ⟨e, htokens, hvalue⟩ := ih d
    obtain ⟨f, htokens', hvalue'⟩ := typePhrase_embeds_succ _ e
    exact ⟨f, htokens'.trans htokens, hvalue'.trans hvalue⟩

/-- Tokens spell one type, however many levels it is given. -/
theorem typePhrase_agree {n m : Nat} {d : (typePhrase n).Tree} {e : (typePhrase m).Tree}
    {rest rest' : List Token} (hrest : Ends typeContinues rest) (hrest' : Ends typeContinues rest')
    (heq : (typePhrase n).tokens d ++ rest = (typePhrase m).tokens e ++ rest') :
    (typePhrase n).value d = (typePhrase m).value e ∧ rest = rest' := by
  obtain ⟨d', hd, hdvalue⟩ := typePhrase_embeds (Nat.le_max_left n m) d
  obtain ⟨e', he, hevalue⟩ := typePhrase_embeds (Nat.le_max_right n m) e
  rw [← hd, ← he] at heq
  obtain ⟨rfl, hends⟩ := typePhrase_unambiguous (max n m) hrest hrest' heq
  exact ⟨hdvalue.symm.trans hevalue, hends⟩

theorem DefinitionTree.agree {n m : Nat} {d : DefinitionTree (typePhrase n)}
    {e : DefinitionTree (typePhrase m)} {rest rest' : List Token}
    (hrest : Ends typeContinues rest) (hrest' : Ends typeContinues rest')
    (heq : d.tokens ++ rest = e.tokens ++ rest') :
    d.name = e.name ∧ (typePhrase n).value d.type = (typePhrase m).value e.type ∧
      rest = rest' := by
  obtain ⟨-, hname⟩ := Terminal.eq_of_cons heq
  obtain ⟨hname, hequal⟩ := Terminal.eq_of_cons hname
  obtain ⟨-, htype⟩ := Terminal.eq_of_cons hequal
  obtain ⟨hvalue, hend⟩ := typePhrase_agree hrest hrest' htype
  exact ⟨hname, hvalue, hend⟩

namespace SignatureTree
variable {n : Nat}

def definition (s : SignatureTree (typePhrase n)) : DefinitionTree (typePhrase (n + 1)) :=
  ⟨s.start, s.name, s.equal, s.type⟩

theorem functionType?_definition (s : SignatureTree (typePhrase n)) :
    functionType? ((typePhrase (n + 1)).value s.definition.type) =
      some (s.parameters.value, (typePhrase n).value s.result) := rfl

end SignatureTree

/-- A definition of a function type is a signature. -/
theorem DefinitionTree.exists_signature {n : Nat} (d : DefinitionTree (typePhrase n))
    {parameters : Interface} {result : TypeExpr}
    (h : functionType? ((typePhrase n).value d.type) = some (parameters, result)) :
    ∃ (m : Nat) (s : SignatureTree (typePhrase m)), s.tokens = d.tokens ∧ s.name = d.name ∧
      s.parameters.value = parameters ∧ (typePhrase m).value s.result = result := by
  cases n with
  | zero => exact d.type.elim
  | succ n =>
    obtain ⟨start, name, equal, type⟩ := d
    cases type with
    | function shape colon tree =>
      cases h
      exact ⟨n, ⟨start, name, equal, shape, colon, tree⟩, rfl, rfl, rfl, rfl⟩
    | array _ _ => cases h
    | interface _ => cases h
    | simple _ => cases h

/-- The tokens end with a signature of the given name, properties and result. -/
def Announced (before : List Token) (name : String) (written : List (String × TypeExpr))
    (result : TypeExpr) : Prop :=
  ∃ (n : Nat) (s : SignatureTree (typePhrase n)), s.tokens <:+ before ∧
    s.name.val.lexeme = name ∧ s.written = written ∧ (typePhrase n).value s.result = result

section
variable {name : String} {written : List (String × TypeExpr)} {result : TypeExpr}
variable {before rest : List Token}

theorem Announced.append (h : Announced rest name written result) (before : List Token) :
    Announced (before ++ rest) name written result := by
  obtain ⟨n, s, hsuffix, hs⟩ := h
  exact ⟨n, s, hsuffix.trans (List.suffix_append before rest), hs⟩

theorem not_announced_nil : ¬ Announced [] name written result := by
  rintro ⟨n, s, hsuffix, -⟩
  cases List.suffix_nil.mp hsuffix

theorem announced_cons {t : Token} (ht : t.kind ≠ .keyword .typeWord) :
    Announced (t :: rest) name written result ↔ Announced rest name written result := by
  constructor
  · rintro ⟨n, s, hsuffix, hs⟩
    rcases List.suffix_cons_iff.mp hsuffix with heq | hrest
    · have hstart : s.start.val = t := (List.cons.inj heq).1
      exact absurd (hstart ▸ s.start.property) ht
    · exact ⟨n, s, hrest, hs⟩
  · intro h
    exact h.append [t]

theorem announced_append_quiet (h : Spelled quiet before) :
    Announced (before ++ rest) name written result ↔ Announced rest name written result := by
  induction before with
  | nil => rfl
  | cons t before ih =>
    obtain ⟨ht, hbefore⟩ := spelled_cons.mp h
    rw [List.cons_append, announced_cons, ih hbefore]
    intro hk
    rw [hk] at ht
    cases ht

/-- No declaration begins behind the first token of a definition. -/
theorem DefinitionTree.quiet_tail {n : Nat} (d : DefinitionTree (typePhrase n)) :
    Spelled quiet d.tokens.tail := by
  rw [tokens, List.tail_cons, spelled_cons, spelled_cons]
  exact ⟨d.name.spelled rfl, d.equal.spelled rfl, typePhrase_quiet d.type⟩

/-- A signature at the end of a definition and what follows it is behind the definition, or it
is the definition and nothing follows. -/
theorem Announced.of_definition {n : Nat} {d : DefinitionTree (typePhrase n)}
    (hends : Ends typeContinues rest) (h : Announced (d.tokens ++ rest) name written result) :
    Announced rest name written result ∨ rest = [] ∧ d.name.val.lexeme = name ∧
      ∃ parameters, functionType? ((typePhrase n).value d.type) = some (parameters, result) ∧
        parameters.fields = Record.merged written := by
  obtain ⟨m, s, hsuffix, hname, hwritten, hresult⟩ := h
  rcases List.suffix_cons_iff.mp hsuffix with heq | hsuffix
  · have hall : s.definition.tokens ++ [] = d.tokens ++ rest := (List.append_nil _).trans heq
    obtain ⟨hsame, hvalue, hnil⟩ := DefinitionTree.agree (ends_nil _) hends hall
    right
    refine ⟨hnil.symm, hsame ▸ hname, s.parameters.value, ?_, ?_⟩
    · rw [← hvalue, s.functionType?_definition, hresult]
    · rw [← hwritten]
      rfl
  · left
    exact (announced_append_quiet d.quiet_tail).mp ⟨m, s, hsuffix, hname, hwritten, hresult⟩

/-- A definition of a function type announces what stands in it. -/
theorem DefinitionTree.announced {n : Nat} {d : DefinitionTree (typePhrase n)}
    {parameters : Interface}
    (h : functionType? ((typePhrase n).value d.type) = some (parameters, result)) :
    ∃ written, Announced d.tokens d.name.val.lexeme written result := by
  obtain ⟨m, s, htokens, hname, -, hresult⟩ := d.exists_signature h
  have hsuffix : s.tokens <:+ d.tokens := ⟨[], htokens⟩
  refine ⟨s.written, m, s, hsuffix, ?_, rfl, hresult⟩
  rw [hname]

end

end Scriptwright.Grammar
