import Scriptwright.Proofs.Grammar.Declared
import Scriptwright.Proofs.Grammar.Signature
import Scriptwright.Proofs.Grammar.Spans
import Scriptwright.Proofs.Parser.EndOfText

/-!
# Functions and their signatures

A function has types if and only if its first word stands right behind a signature of its
name, and then it has those of the signature. This holds of every function of a program, in
whatever block it stands: the functions of a program are counted by their first words, and
what stands before such a word decides about the types.

A signature that is not followed by a function of its name is a fault, wherever a signature
can stand.
-/

namespace Scriptwright

/-- The functions of a program, at the top and inside others, in the order of their first
words. -/
def Program.functions (p : Program) : List Declaration := p.declared.filter Declaration.isFunction

namespace Grammar
open Scriptwright.Parser

def isFunc (t : Token) : Bool := t.kind == .keyword .funcWord

theorem isFunc_of_kind {t : Token} (h : t.kind = .keyword .funcWord) : isFunc t = true := by
  rw [isFunc, h]
  rfl

theorem not_isFunc_of_quiet {t : Token} (h : quiet t.kind = true) : ¬ isFunc t = true := by
  intro hfunc
  rw [eq_of_beq hfunc] at h
  cases h

/-- `d` is the function that begins with the word `start`. It has the types of the signature
of its name that ends with the last of the tokens before it, or no types. -/
def Bound (before : List Token) (start : Token) (after : List Token) (d : Declaration) : Prop :=
  ∃ (n : Nat) (f : FunctionTree (blockPhrase n)) (rest : List Token)
    (parameters : List Parameter) (result : Option TypeExpr),
    f.tokens ++ rest = start :: after ∧
    d = .function f.name.val.lexeme parameters result ((blockPhrase n).value f.body)
      (start.span.cover ((blockPhrase n).value f.body).span) ∧
    parameters.map (fun p => (p.name, p.span)) =
      f.parameters.items.map (fun name => (name.val.lexeme, name.val.span)) ∧
    (∀ written type, Announced before f.name.val.lexeme written type →
      result = some type ∧ ∀ p ∈ parameters, p.type = Record.lastGiven? p.name written) ∧
    ((∀ written type, ¬ Announced before f.name.val.lexeme written type) →
      result = none ∧ ∀ p ∈ parameters, p.type = none)

section
variable {before before' after rest : List Token} {start : Token} {d : Declaration} {n : Nat}

theorem Bound.congr (h : Bound before start after d)
    (hsame : ∀ name written type,
      Announced before' name written type ↔ Announced before name written type) :
    Bound before' start after d := by
  simpa only [Bound, hsame] using h

theorem FunctionTree.bound_none (f : FunctionTree (blockPhrase n)) (rest : List Token)
    (h : ∀ written type, ¬ Announced before f.name.val.lexeme written type) :
    Bound before f.start.val (f.tokens.tail ++ rest) (f.value none) := by
  refine ⟨n, f, rest, _, _, rfl, rfl, ?_, ?_, ?_⟩
  · rw [List.map_map]
    rfl
  · intro written type hannounced
    exact absurd hannounced (h written type)
  · intro _
    refine ⟨rfl, ?_⟩
    intro p hp
    obtain ⟨name, -, rfl⟩ := List.mem_map.mp hp
    rfl

theorem FunctionTree.bound_some (f : FunctionTree (blockPhrase n)) (rest : List Token)
    {parameters : Interface} {result : TypeExpr}
    (hexists : ∃ written, Announced before f.name.val.lexeme written result)
    (hall : ∀ written type, Announced before f.name.val.lexeme written type →
      type = result ∧ parameters.fields = Record.merged written) :
    Bound before f.start.val (f.tokens.tail ++ rest) (f.value (some (parameters, result))) := by
  refine ⟨n, f, rest, _, _, rfl, rfl, ?_, ?_, ?_⟩
  · rw [List.map_map]
    rfl
  · intro written type hannounced
    obtain ⟨rfl, hfields⟩ := hall written type hannounced
    refine ⟨rfl, ?_⟩
    intro p hp
    obtain ⟨name, -, rfl⟩ := List.mem_map.mp hp
    change Record.get? _ parameters.fields = _
    rw [hfields, Record.get?_merged]
  · intro hnone
    obtain ⟨written, hannounced⟩ := hexists
    exact absurd hannounced (hnone written result)

/-- A token that is not among the first tokens stands among the others. -/
theorem exists_front {xs ys : List Token} (h : xs ++ ys = before ++ start :: after)
    (hxs : start ∉ xs) : ∃ front, before = xs ++ front ∧ ys = front ++ start :: after := by
  rcases List.append_eq_append_iff.mp h with ⟨front, hbefore, hys⟩ | ⟨more, hxs', hmore⟩
  · exact ⟨front, hbefore, hys⟩
  · cases more with
    | nil =>
      rw [List.append_nil] at hxs'
      exact ⟨[], by rw [hxs', List.append_nil], hmore.symm⟩
    | cons t more =>
      obtain ⟨rfl, -⟩ := List.cons.inj hmore
      exact absurd (hxs' ▸ List.mem_append_right before List.mem_cons_self) hxs

theorem Ends.of_append {continues : Kind → Bool} (h : Ends continues (before ++ rest)) :
    Ends continues before := by
  cases before with
  | nil => exact ends_nil continues
  | cons t before => exact h

theorem DefinitionTree.not_isFunc (d : DefinitionTree (typePhrase n)) {t : Token}
    (ht : t ∈ d.tokens) : ¬ isFunc t = true := by
  rcases List.mem_cons.mp ht with rfl | ht
  · rw [isFunc, d.start.property]
    exact Bool.false_ne_true
  · exact not_isFunc_of_quiet (d.quiet_tail t ht)

theorem DefinitionTree.countP_isFunc (d : DefinitionTree (typePhrase n)) :
    d.tokens.countP isFunc = 0 := by
  rw [List.countP_eq_zero]
  intro t ht
  exact d.not_isFunc ht

end

section
variable {β : Type} {P : Parser β} {before ts : List Token} {ds : List Declaration}

/-- Each function has its own word. -/
theorem Declares.length_functions (h : Declares P before ts ds) :
    (ds.filter Declaration.isFunction).length = ts.countP isFunc := by
  induction h with
  | nil => rfl
  | quiet ht _ ih => rw [ih, List.countP_cons_of_neg (not_isFunc_of_quiet ht)]
  | typeName d _ _ _ _ ih =>
    rw [List.filter_cons_of_neg Bool.false_ne_true, ih, List.countP_append, d.countP_isFunc,
      Nat.zero_add]
  | @function n _ ts _ d _ ih =>
    have htokens : d.tokens ++ ts = d.start.val :: (d.tokens.tail ++ ts) := rfl
    rw [List.filter_cons_of_pos rfl, List.length_cons, ih, htokens,
      List.countP_cons_of_pos (isFunc_of_kind d.start.property)]
  | @signed n _ ts _ definition _ _ _ d _ _ _ ih =>
    have htokens : d.tokens ++ ts = d.start.val :: (d.tokens.tail ++ ts) := rfl
    rw [List.countP_append, definition.countP_isFunc, Nat.zero_add, htokens,
      List.countP_cons_of_pos (isFunc_of_kind d.start.property), ← ih]
    rfl

/-- A type that is declared is no function type. -/
theorem Declares.plain (h : Declares P before ts ds) {name : String} {definition : TypeExpr}
    {span : Span} (hmem : .typeName name definition span ∈ ds) :
    functionType? definition = none := by
  induction h with
  | nil => cases hmem
  | quiet _ _ ih => exact ih hmem
  | typeName d plain _ _ _ ih =>
    rcases List.mem_cons.mp hmem with heq | hmem
    · cases heq
      exact plain
    · exact ih hmem
  | function d _ ih =>
    rcases List.mem_cons.mp hmem with heq | hmem
    · cases heq
    · exact ih hmem
  | signed _ _ d _ _ _ ih =>
    rcases List.mem_cons.mp hmem with heq | hmem
    · cases heq
    · exact ih hmem

/-- The function of each word `func` has the types of the signature before the word. -/
theorem Declares.bound (h : Declares P before ts ds) {front after : List Token} {start : Token}
    (hts : ts = front ++ start :: after) (hstart : start.kind = .keyword .funcWord) :
    ∃ d, (ds.filter Declaration.isFunction)[front.countP isFunc]? = some d ∧
      Bound front start after d := by
  have hword : ∀ {n : Nat} (d : DefinitionTree (typePhrase n)), start ∉ d.tokens := by
    intro n d hmem
    exact d.not_isFunc hmem (isFunc_of_kind hstart)
  have hne : ∀ t : Token, t.kind = .keyword .funcWord → t.kind ≠ .keyword .typeWord := by
    intro t ht htype
    rw [ht] at htype
    cases htype
  induction h generalizing front with
  | nil => cases List.append_ne_nil_of_right_ne_nil front (List.cons_ne_nil start after) hts.symm
  | @quiet _ _ _ t ht _ ih =>
    cases front with
    | nil =>
      cases hts
      exact absurd (isFunc_of_kind hstart) (not_isFunc_of_quiet ht)
    | cons u front =>
      obtain ⟨rfl, hmore⟩ := List.cons.inj hts
      obtain ⟨d, hd, hbound⟩ := ih hmore
      refine ⟨d, ?_, hbound.congr ?_⟩
      · rw [List.countP_cons_of_neg (not_isFunc_of_quiet ht)]
        exact hd
      · intro name written type
        apply announced_cons
        intro hk
        rw [hk] at ht
        cases ht
  | typeName d plain _ hends _ ih =>
    obtain ⟨front, rfl, rfl⟩ := exists_front hts (hword d)
    obtain ⟨f, hf, hbound⟩ := ih rfl
    refine ⟨f, ?_, hbound.congr ?_⟩
    · rw [List.filter_cons_of_neg Bool.false_ne_true, List.countP_append, d.countP_isFunc,
        Nat.zero_add]
      exact hf
    · intro name written type
      constructor
      · intro hannounced
        rcases hannounced.of_definition hends.of_append with hfront | ⟨-, -, parameters, hsome, -⟩
        · exact hfront
        · rw [plain] at hsome
          cases hsome
      · intro hannounced
        exact hannounced.append d.tokens
  | @function n _ ts _ d _ ih =>
    cases front with
    | nil =>
      cases hts
      refine ⟨d.value none, rfl, d.bound_none ts ?_⟩
      intro written type
      exact not_announced_nil
    | cons t front =>
      obtain ⟨rfl, hmore⟩ := List.cons.inj hts
      obtain ⟨f, hf, hbound⟩ := ih hmore
      refine ⟨f, ?_, hbound.congr ?_⟩
      · rw [List.filter_cons_of_pos rfl, List.countP_cons_of_pos (isFunc_of_kind d.start.property)]
        exact hf
      · intro name written type
        exact announced_cons (hne _ d.start.property)
  | @signed n _ ts _ definition parameters result signature d sameName _ _ ih =>
    obtain ⟨front, rfl, htokens⟩ := exists_front hts (hword definition)
    rw [List.filter_cons_of_pos rfl, List.countP_append, definition.countP_isFunc, Nat.zero_add]
    cases front with
    | nil =>
      cases htokens
      refine ⟨_, rfl, d.bound_some ts ?_ ?_⟩
      · obtain ⟨written, hannounced⟩ := definition.announced signature
        rw [List.append_nil, ← sameName]
        exact ⟨written, hannounced⟩
      · intro written type hannounced
        rcases hannounced.of_definition (ends_nil _) with hnil | ⟨-, -, fields, hsome, hfields⟩
        · exact absurd hnil not_announced_nil
        · rw [signature] at hsome
          cases hsome
          exact ⟨rfl, hfields⟩
    | cons t front =>
      obtain ⟨rfl, hmore⟩ := List.cons.inj htokens
      obtain ⟨f, hf, hbound⟩ := ih hmore
      refine ⟨f, ?_, hbound.congr ?_⟩
      · rw [List.countP_cons_of_pos (isFunc_of_kind d.start.property)]
        exact hf
      · intro name written type
        have hends : Ends typeContinues (d.start.val :: front) := by
          rw [ends_cons, d.start.property]
          rfl
        constructor
        · intro hannounced
          rcases hannounced.of_definition hends with hfront | ⟨hnil, -⟩
          · exact (announced_cons (hne _ d.start.property)).mp hfront
          · cases hnil
        · intro hannounced
          exact (hannounced.append [d.start.val]).append definition.tokens

/-- The word `type` behind `before` begins a definition, and `P` fails if the definition, or
the function that goes with it, cannot be read. -/
def Defines (P : Parser β) (before : List Token) (start : Token) (after : List Token) : Prop :=
  ∃ (n : Nat) (d : DefinitionTree (typePhrase n)) (more : List Token),
    d.tokens ++ more = start :: after ∧ Ends typeContinues more ∧
      Exposed P (before ++ [start]) (typeFrom (Parser.typeExpr n) (Parser.block n) start)

theorem DefinitionTree.front_cases {n : Nat} (d : DefinitionTree (typePhrase n))
    {front after : List Token} {start : Token} (hstart : start.kind = .keyword .typeWord)
    (h : d.tokens ++ ts = front ++ start :: after) :
    front = [] ∧ start = d.start.val ∨
      ∃ later, front = d.tokens ++ later ∧ ts = later ++ start :: after := by
  cases front with
  | nil => exact .inl ⟨rfl, (List.cons.inj h).1.symm⟩
  | cons t front =>
    right
    obtain ⟨rfl, htail⟩ := List.cons.inj h
    have hmem : start ∉ d.tokens.tail := by
      intro hmem
      have hquiet := d.quiet_tail start hmem
      rw [hstart] at hquiet
      cases hquiet
    obtain ⟨later, rfl, hts⟩ := exists_front htail hmem
    exact ⟨later, rfl, hts⟩

theorem Declares.defines (h : Declares P before ts ds) {front after : List Token} {start : Token}
    (hts : ts = front ++ start :: after) (hstart : start.kind = .keyword .typeWord) :
    Defines P (before ++ front) start after := by
  have hfunc : ∀ t : Terminal (.keyword .funcWord), t.val ≠ start := by
    rintro t rfl
    cases t.property.symm.trans hstart
  induction h generalizing front with
  | nil => cases List.append_ne_nil_of_right_ne_nil front (List.cons_ne_nil start after) hts.symm
  | quiet ht _ ih =>
    cases front with
    | nil =>
      cases hts
      rw [hstart] at ht
      cases ht
    | cons u front =>
      obtain ⟨rfl, hmore⟩ := List.cons.inj hts
      rw [List.append_cons]
      exact ih hmore
  | @typeName n _ ts _ d plain hexposed hends _ ih =>
    rcases d.front_cases hstart hts with ⟨rfl, rfl⟩ | ⟨later, rfl, hmore⟩
    · rw [List.append_nil]
      exact ⟨n, d, ts, hts, hends, hexposed⟩
    · rw [← List.append_assoc]
      exact ih hmore
  | function d _ ih =>
    cases front with
    | nil => exact absurd (List.cons.inj hts).1 (hfunc d.start)
    | cons u front =>
      obtain ⟨rfl, hmore⟩ := List.cons.inj hts
      rw [List.append_cons]
      exact ih hmore
  | @signed n _ ts _ definition _ _ signature d _ hexposed _ ih =>
    rcases definition.front_cases hstart hts with ⟨rfl, rfl⟩ | ⟨later, rfl, hmore⟩
    · have hends : Ends typeContinues (d.tokens ++ ts) := by
        rw [FunctionTree.tokens, List.cons_append, ends_cons, d.start.property]
        rfl
      rw [List.append_nil]
      exact ⟨n, definition, d.tokens ++ ts, hts, hends, hexposed⟩
    · cases later with
      | nil => exact absurd (List.cons.inj hmore).1 (hfunc d.start)
      | cons u later =>
        obtain ⟨rfl, hlater⟩ := List.cons.inj hmore
        rw [← List.append_assoc, List.append_cons]
        exact ih hlater

end

/-- A definition ends where a colon cannot go on with its type. -/
theorem DefinitionTree.run_type {n : Nat} (d : DefinitionTree (typePhrase n)) {rest : List Token}
    (h : ∀ t ∈ rest.head?, t.kind = .colon → ∀ u ∈ d.tokens.getLast?, u.kind ≠ .rightBrace) :
    run (Parser.typeExpr n) ((typePhrase n).tokens d.type ++ rest) =
      .ok ((typePhrase n).value d.type, rest) := by
  by_cases hcolon : ∃ t ∈ rest.head?, t.kind = .colon
  · obtain ⟨t, ht, hk⟩ := hcolon
    apply run_typeExpr_of_last
    intro u hu
    apply h t ht hk
    exact List.mem_getLast?_cons (List.mem_getLast?_cons (List.mem_getLast?_cons hu))
  · apply (typeExpr_reads n).complete
    intro t ht
    apply beq_false_of_ne
    intro hk
    exact hcolon ⟨t, ht, hk⟩

section
variable {n : Nat} (d : DefinitionTree (typePhrase n)) {parameters : Interface}
  {result : TypeExpr} (h : functionType? ((typePhrase n).value d.type) = some (parameters, result))
include h

theorem run_typeFrom_of_no_function (block : Token → Parser Block) {rest : List Token}
    (hcolon : ∀ t ∈ rest.head?, t.kind = .colon → ∀ u ∈ d.tokens.getLast?, u.kind ≠ .rightBrace)
    (hnext : ∀ t ∈ rest.head?, t.kind ≠ .keyword .funcWord) :
    (typeFrom (Parser.typeExpr n) block d.start.val).run (d.tokens.tail ++ rest) =
      .error (.over .signatureWithoutFunction d.span) := by
  obtain ⟨span, hvalue⟩ := functionType?_eq_some.mp h
  have hfunc : ¬ rest.head?.any (·.kind = .keyword .funcWord) = true := by
    cases rest with
    | nil => exact Bool.false_ne_true
    | cons t rest => simpa using hnext t rfl
  have hspan : d.span = d.start.val.span.cover span := by
    rw [DefinitionTree.span, hvalue]
    rfl
  unfold typeFrom DefinitionTree.tokens
  rw [List.tail_cons, List.cons_append, run_take_bind, List.cons_append, run_take_bind,
    run_bind_of_ok (d.run_type hcolon)]
  simp only [hvalue]
  rw [run_bind_of_ok (run_nextIs _ _), if_neg hfunc, hspan]
  rfl

theorem run_typeFrom_of_other_name (block : Token → Parser Block)
    (func : Terminal (.keyword .funcWord)) (name : Terminal .identifier) (equal : Terminal .equal)
    (rest : List Token) (hname : d.name.val.lexeme ≠ name.val.lexeme) :
    (typeFrom (Parser.typeExpr n) block d.start.val).run
        (d.tokens.tail ++ func.val :: name.val :: equal.val :: rest) =
      .error (.over .signatureNameMismatch d.span) := by
  have hfail : (functionFrom block (some ⟨d.name.val.lexeme, parameters, result, d.span⟩)
      func.val).run (name.val :: equal.val :: rest) =
        .error (.over .signatureNameMismatch d.span) := by
    unfold functionFrom
    rw [run_take_bind, run_take_bind]
    apply run_bind_of_error
    rw [checkName, if_neg hname]
    rfl
  rw [List.append_cons]
  exact exposed_signed (typeExpr_reads n) d h func hfail

end

/-- The tokens begin a program that can be read. -/
def Begun (ts : List Token) : Prop :=
  ∃ file tokens p, Program.ofTokens file tokens = .ok p ∧ ts <+: Token.body tokens

/-- Where a signature and a function can follow, the signature is read as a definition. -/
theorem Begun.exists_definition {n : Nat} {s : SignatureTree (typePhrase n)} {before : List Token}
    {func : Terminal (.keyword .funcWord)} (h : Begun (before ++ (s.tokens ++ [func.val]))) :
    ∃ (m : Nat) (d : DefinitionTree (typePhrase m)), d.tokens = s.tokens ∧ d.name = s.name ∧
      d.span = s.span ∧ functionType? ((typePhrase m).value d.type) =
        some (s.parameters.value, (typePhrase n).value s.result) ∧
      Exposed (Parser.declarations nestingLimit) (before ++ [d.start.val])
        (typeFrom (Parser.typeExpr m) (Parser.block m) d.start.val) := by
  obtain ⟨file, tokens, p, hp, more, hmore⟩ := h
  obtain ⟨program, hprogram, -⟩ := ofTokens_eq_ok.mp hp
  have htokens : program.tokens =
      before ++ s.start.val :: (s.tokens.tail ++ func.val :: more) := by
    rw [hprogram, ← hmore]
    simp [SignatureTree.tokens]
  obtain ⟨m, d, later, hd, hends, hexposed⟩ :=
    (program.declares file).defines htokens s.start.property
  have hfunc : Ends typeContinues (func.val :: more) := by
    rw [ends_cons, func.property]
    rfl
  have hsame : d.tokens ++ later = s.definition.tokens ++ func.val :: more := hd
  obtain ⟨hname, hvalue, rfl⟩ := DefinitionTree.agree hends hfunc hsame
  have hstart : d.start.val = s.start.val := (List.cons.inj hd).1
  refine ⟨m, d, List.append_cancel_right hsame, hname, ?_, ?_, ?_⟩
  · rw [DefinitionTree.span, hvalue, hstart]
    rfl
  · rw [hvalue]
    exact s.functionType?_definition
  · rw [hstart]
    exact hexposed

theorem ofTokens_of_typeFrom_error {m file : Nat} {d : DefinitionTree (typePhrase m)}
    {tokens before rest : List Token} {fault : SyntaxFault} {span : Span}
    (hexposed : Exposed (Parser.declarations nestingLimit) (before ++ [d.start.val])
      (typeFrom (Parser.typeExpr m) (Parser.block m) d.start.val))
    (hbody : Token.body tokens = before ++ (d.tokens ++ rest))
    (hfail : (typeFrom (Parser.typeExpr m) (Parser.block m) d.start.val).run
      (d.tokens.tail ++ rest) = .error (.over fault span)) :
    Program.ofTokens file tokens = .error ⟨fault, "", span⟩ := by
  rw [Program.ofTokens_eq_error]
  refine ⟨.over fault span, ?_, rfl⟩
  have hsplit : before ++ (d.tokens ++ rest) =
      before ++ [d.start.val] ++ (d.tokens.tail ++ rest) := by
    rw [← List.append_cons]
    rfl
  rw [hbody, hsplit]
  exact hexposed hfail

/-- In tokens that stand in order, a signature reaches from its first word to the end of its
result. -/
theorem SignatureTree.span_of_inOrder {n file : Nat} (s : SignatureTree (typePhrase n))
    (h : Token.InOrder file s.tokens) :
    s.span = ⟨file, s.start.val.span.start, ((typePhrase n).value s.result).span.stop⟩ := by
  have hlead : s.tokens = s.start.val :: s.name.val :: s.equal.val ::
      (s.parameters.tokens ++ [s.colon.val]) ++ (typePhrase n).tokens s.result := by
    simp [SignatureTree.tokens, SignatureTree.type, TypeTree.tokens]
  have htype : s.type.tokens <:+ [s.name.val, s.equal.val] ++ s.type.tokens :=
    List.suffix_append _ _
  have hresults : (typePhrase n).Places file [] s.tokens .type := typePhrase_places h n
  have htypes : (typePhrase (n + 1)).Places file [] s.tokens .type := typePhrase_places h (n + 1)
  have hwhole : s.span.Over file ([s.start.val] ++ s.tokens.tail) :=
    (htypes s.type (htype.sublist.cons _)).spanned.cover_first htype h
  have hfirst : s.start.val.span.Over file [s.start.val] := .single (h.file _ List.mem_cons_self)
  have hlast := (hresults s.result (hlead ▸ List.sublist_append_right _ _)).spanned
  have hstop : s.span.stop = ((typePhrase n).value s.result).span.stop := by
    have hsplit : s.span.Over file s.tokens := hwhole
    rw [hlead] at hsplit
    exact hsplit.stop_eq hlast
  calc s.span = ⟨s.span.file, s.span.start, s.span.stop⟩ := rfl
    _ = _ := by rw [hwhole.file, hwhole.start_eq hfirst, hstop]

end Grammar

open Grammar in
/-- Signatures belong to the functions behind them. In a program that is read no declared type
is a function type, and each function, counted by its first word, has the types of the
signature before it, or none. A signature with no function behind it, or one of another name,
is a fault over the whole signature, wherever a signature and a function can stand. Behind a
result that ends with a brace a colon would only go on with the signature. -/
theorem Program.ofTokens_binds_signatures (file : Nat) (tokens : List Token) :
    (∀ p, ofTokens file tokens = .ok p →
      (∀ name definition span, .typeName name definition span ∈ p.declared →
        functionType? definition = none) ∧
      p.functions.length = (Token.body tokens).countP isFunc ∧
      ∀ before start after, Token.body tokens = before ++ start :: after →
        start.kind = .keyword .funcWord →
        ∃ d, p.functions[before.countP isFunc]? = some d ∧ Bound before start after d) ∧
    ∀ (n : Nat) (s : SignatureTree (typePhrase n)) (before rest : List Token)
      (func : Terminal (.keyword .funcWord)), Token.body tokens = before ++ (s.tokens ++ rest) →
      Begun (before ++ (s.tokens ++ [func.val])) →
      ((∀ t ∈ rest.head?, t.kind ≠ .keyword .funcWord) →
        (∀ t ∈ rest.head?, t.kind = .colon → ∀ u ∈ s.tokens.getLast?, u.kind ≠ .rightBrace) →
        ofTokens file tokens = .error ⟨.signatureWithoutFunction, "", s.span⟩ ∧
          SyntaxFault.signatureWithoutFunction.code = "E0100") ∧
      (∀ (name : Terminal .identifier) (equal : Terminal .equal) (more : List Token),
        rest = func.val :: name.val :: equal.val :: more →
        name.val.lexeme ≠ s.name.val.lexeme →
        ofTokens file tokens = .error ⟨.signatureNameMismatch, "", s.span⟩ ∧
          SyntaxFault.signatureNameMismatch.code = "E0102") ∧
      (Token.InOrder file (Token.body tokens) →
        s.span = ⟨file, s.start.val.span.start, ((typePhrase n).value s.result).span.stop⟩) := by
  constructor
  · intro p hp
    obtain ⟨d, hd, rfl⟩ := ofTokens_eq_ok.mp hp
    have hdeclares := d.declares file
    rw [hd] at hdeclares
    refine ⟨?_, hdeclares.length_functions, ?_⟩
    · intro name definition span hmem
      exact hdeclares.plain hmem
    · intro before start after hbody hstart
      exact hdeclares.bound hbody hstart
  · intro n s before rest func hbody hbegun
    obtain ⟨m, d, htokens, hname, hspan, hfunction, hexposed⟩ := hbegun.exists_definition
    rw [← htokens] at hbody
    refine ⟨?_, ?_, ?_⟩
    · intro hnext hcolon
      rw [← htokens] at hcolon
      rw [← hspan]
      exact ⟨ofTokens_of_typeFrom_error hexposed hbody
        (run_typeFrom_of_no_function d hfunction _ hcolon hnext), rfl⟩
    · rintro name equal more rfl hne
      rw [← hname] at hne
      rw [← hspan]
      exact ⟨ofTokens_of_typeFrom_error hexposed hbody
        (run_typeFrom_of_other_name d hfunction _ func name equal more hne.symm), rfl⟩
    · intro horder
      rw [htokens] at hbody
      rw [hbody] at horder
      apply s.span_of_inOrder
      exact horder.sublist ((List.sublist_append_left _ _).trans (List.sublist_append_right _ _))

namespace Grammar

/-- `type f = {a: n, b: n, a: m}: k` -/
def repeatedSignature (n : Nat) : SignatureTree (typePhrase (n + 1)) :=
  ⟨leaf (.keyword .typeWord) "type", leaf .identifier "f", leaf .equal "=",
    ⟨leaf .leftBrace "\x7b",
      .some ⟨leaf .identifier "a", leaf .colon ":", .simple (leaf .identifier "n")⟩
        [(leaf .comma ",",
            ⟨leaf .identifier "b", leaf .colon ":", .simple (leaf .identifier "n")⟩),
          (leaf .comma ",",
            ⟨leaf .identifier "a", leaf .colon ":", .simple (leaf .identifier "m")⟩)],
      leaf .rightBrace "\x7d"⟩,
    leaf .colon ":", .simple (leaf .identifier "k")⟩

/-- `func f = {b, c, a} {}` -/
def shuffledFunction (n : Nat) : FunctionTree (blockPhrase (n + 1)) :=
  ⟨leaf (.keyword .funcWord) "func", leaf .identifier "f", leaf .equal "=",
    leaf .leftBrace "\x7b", .some (leaf .identifier "b")
      [(leaf .comma ",", leaf .identifier "c"), (leaf .comma ",", leaf .identifier "a")],
    leaf .rightBrace "\x7d", emptyBlock n⟩

/-- `func g = {} {`, the signature, the function and `}` -/
def shuffledProgram : ProgramTree :=
  ⟨[.function (functionTree "g" (⟨leaf .leftBrace "\x7b",
    [.declaration (.signed (repeatedSignature 125).definition _ _ rfl (shuffledFunction 126) rfl)],
    none, leaf .rightBrace "\x7d"⟩ : BlockTree (typePhrase 127) (exprPhrase 127)
      (blockPhrase 127)))]⟩

/-- `func g = {} {` -/
def openedTokens : List Token :=
  [(leaf (.keyword .funcWord) "func").val, (leaf .identifier "g").val, (leaf .equal "=").val,
    (leaf .leftBrace "\x7b").val, (leaf .rightBrace "\x7d").val, (leaf .leftBrace "\x7b").val]

end Grammar

open Grammar in
/-- A signature that gives a name two types binds the function behind it, in a block. In the
same place the signature alone is a fault, and so is one before a function of another name. -/
theorem Program.ofTokens_binds_shuffled :
    (∃ d, (shuffledProgram.value 0).functions[1]? = some d ∧
      Bound (openedTokens ++ (repeatedSignature 125).tokens) (leaf (.keyword .funcWord) "func").val
        ((shuffledFunction 126).tokens.tail ++ [(leaf .rightBrace "\x7d").val]) d ∧
      ∃ parameters body span,
        d = .function "f" parameters (some (.simple "k" default)) body span ∧
          parameters.map (·.type) =
            [some (.simple "n" default), none, some (.simple "m" default)]) ∧
    ofTokens 0 (openedTokens ++
        ((repeatedSignature 125).tokens ++ [(leaf .rightBrace "\x7d").val])) =
      .error ⟨.signatureWithoutFunction, "", (repeatedSignature 125).span⟩ ∧
    ofTokens 0 (openedTokens ++ ((repeatedSignature 125).tokens ++
        [(leaf (.keyword .funcWord) "func").val, (leaf .identifier "g").val,
          (leaf .equal "=").val])) =
      .error ⟨.signatureNameMismatch, "", (repeatedSignature 125).span⟩ := by
  have hprogram : ofTokens 0 shuffledProgram.tokens = .ok (shuffledProgram.value 0) :=
    ofTokens_eq_ok.mpr ⟨shuffledProgram, rfl, rfl⟩
  have hbegun : Begun (openedTokens ++ ((repeatedSignature 125).tokens ++
      [(leaf (.keyword .funcWord) "func").val])) :=
    ⟨0, shuffledProgram.tokens, _, hprogram, _, rfl⟩
  have hbound := ((ofTokens_binds_signatures 0 shuffledProgram.tokens).1 _ hprogram).2.2
    (openedTokens ++ (repeatedSignature 125).tokens) (leaf (.keyword .funcWord) "func").val
    ((shuffledFunction 126).tokens.tail ++ [(leaf .rightBrace "\x7d").val]) rfl rfl
  have hlonely := (ofTokens_binds_signatures 0 (openedTokens ++ ((repeatedSignature 125).tokens ++
    [(leaf .rightBrace "\x7d").val]))).2 126 (repeatedSignature 125) openedTokens _ _ rfl hbegun
  have hother := (ofTokens_binds_signatures 0 (openedTokens ++ ((repeatedSignature 125).tokens ++
    [(leaf (.keyword .funcWord) "func").val, (leaf .identifier "g").val,
      (leaf .equal "=").val]))).2 126 (repeatedSignature 125) openedTokens _ _ rfl hbegun
  refine ⟨?_, ?_, ?_⟩
  · obtain ⟨d, hd, hbound⟩ := hbound
    cases hd
    exact ⟨_, rfl, hbound, _, _, _, rfl, rfl⟩
  · refine (hlonely.1 ?_ ?_).1
    · rintro t ⟨⟩ hk
      cases hk
    · rintro t ⟨⟩ hk
      cases hk
  · exact (hother.2.1 (leaf .identifier "g") (leaf .equal "=") [] rfl (by decide)).1

end Scriptwright
