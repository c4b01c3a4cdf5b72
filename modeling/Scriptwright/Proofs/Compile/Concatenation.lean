import Scriptwright.Compile
import Scriptwright.Proofs.Parser.EndOfText
import Scriptwright.Proofs.Parser.Relabelling.Program
import Scriptwright.Proofs.Source

/-!
# Compiling one text behind another

The JavaScript of two texts with a line break between them is the JavaScript of the
first followed by that of the second. The declarations of the second are read as if they
stood alone, apart from their spans: the tokens before them have been read to the last
one, and a declaration that names a type is the only one that looks at what follows.
So a fault in the second text is reported as it would be there, further down.
-/

namespace Scriptwright

def Declaration.isFunction : Declaration → Bool
  | .function .. => true
  | .typeName .. => false

namespace Grammar
open Scriptwright.Parser

section
variable {n : Nat}

/-- The loop over declarations, behind those that it has read, the last one first. -/
def declarationsAfter (n : Nat) (before : List Declaration) : Parser (List Declaration) :=
  extend some (collect (declarationFrom (Parser.typeExpr n) (Parser.block n))) before

theorem run_declarationsAfter_cons (d : DeclarationTree (typePhrase n) (blockPhrase n))
    {rest : List Token} (hends : d.value.isFunction = false → Ends typeContinues rest)
    (before : List Declaration) :
    (declarationsAfter n before).run (d.tokens ++ rest) =
      (declarationsAfter n (d.value :: before)).run rest := by
  have hplain : ∀ definition plain, d = .typeName definition plain → Ends typeContinues rest := by
    rintro definition plain rfl
    exact hends rfl
  obtain ⟨t, ts, c, ht, hc, hrun⟩ := declarationStep_complete d hplain
  have hcollect : (collect (declarationFrom (Parser.typeExpr n) (Parser.block n)) before c).run
      (ts ++ rest) = .ok (d.value :: before, rest) :=
    run_collect_eq_ok.mpr ⟨d.value, hrun, rfl⟩
  rw [ht, List.cons_append, declarationsAfter, run_extend_of_some hc, hcollect]
  rfl

theorem run_declarationsAfter_append (ds : List (DeclarationTree (typePhrase n) (blockPhrase n)))
    {rest : List Token}
    (hends : ∀ d ∈ ds.getLast?, d.value.isFunction = false → Ends typeContinues rest)
    (before : List Declaration) :
    (declarationsAfter n before).run (ds.flatMap DeclarationTree.tokens ++ rest) =
      (declarationsAfter n ((ds.map DeclarationTree.value).reverse ++ before)).run rest := by
  induction ds generalizing before with
  | nil => rfl
  | cons d ds ih =>
    -- Only the last declaration is followed by `rest`; any other by one that begins anew.
    have hnext : d.value.isFunction = false →
        Ends typeContinues (ds.flatMap DeclarationTree.tokens ++ rest) := by
      cases ds with
      | nil => exact hends d rfl
      | cons d' ds =>
        rw [List.flatMap_cons, List.append_assoc]
        intro _
        exact DeclarationTree.begins.ends (fun _ => typeContinues_of_declarationStarts) d' _
    have hlast : ∀ d ∈ ds.getLast?, d.value.isFunction = false → Ends typeContinues rest := by
      cases ds with
      | nil =>
        intro d hd
        cases hd
      | cons d' ds =>
        rw [List.getLast?_cons_cons] at hends
        exact hends
    rw [List.flatMap_cons, List.append_assoc, run_declarationsAfter_cons d hnext, ih hlast]
    simp

/-- Declarations in front make no difference to how the loop goes on. -/
theorem tracks_declarationsAfter {f : Span → Span}
    (hf : ∀ a b : Span, f (a.cover b) = (f a).cover (f b)) (before : List Declaration) :
    Tracks f (fun values values' => ∃ moved, List.Forall₂ Declaration.SameText values moved ∧
        values' = moved ++ before)
      (declarationsAfter n []) (declarationsAfter n before) := by
  have hselect : ∀ t : Token,
      Option.Rel (fun t u => u = t.relabel f) (some t) (some (t.relabel f)) :=
    fun t => .some rfl
  refine tracks_extend hselect ?_ ⟨[], .nil, rfl⟩
  rintro values _ t _ ⟨moved, hmoved, rfl⟩ rfl
  refine (tracks_declaration hf n t).bind fun d d' hd => ?_
  exact tracks_pure ⟨d' :: moved, .cons hd hmoved, rfl⟩

theorem Ends.relabel {continues : Kind → Bool} {rest : List Token} (h : Ends continues rest)
    (f : Span → Span) : Ends continues (rest.map (Token.relabel f)) := by
  cases rest with
  | nil => exact ends_nil continues
  | cons t rest =>
    have hkind : continues t.kind = false := ends_cons.mp h
    exact ends_cons.mpr hkind

/-- Whatever tokens follow a list of declarations are read like those tokens alone. -/
theorem run_declarations_append {f : Span → Span}
    (hf : ∀ a b : Span, f (a.cover b) = (f a).cover (f b)) {first : List Token}
    {values : List Declaration} {rest : List Token}
    (hfirst : (declarations n).run first = .ok (values, rest)) {second : List Token}
    (hends : ∀ d ∈ values.getLast?, d.isFunction = false → Ends typeContinues second) :
    Alike f (fun later all => ∃ moved, List.Forall₂ Declaration.SameText later moved ∧
        all = values ++ moved)
      ((declarations n).run second)
      ((declarations n).run (first ++ second.map (Token.relabel f))) := by
  obtain ⟨ds, rfl, -, rfl⟩ := run_declarations_eq_ok.mp hfirst
  have hlast : ∀ d ∈ ds.getLast?, d.value.isFunction = false →
      Ends typeContinues (second.map (Token.relabel f)) := by
    intro d hd hplain
    have hmem : d.value ∈ (ds.map DeclarationTree.value).getLast? := by
      rw [List.getLast?_map]
      exact Option.mem_map_of_mem _ hd
    exact (hends d.value hmem hplain).relabel f
  have hskip := run_declarationsAfter_append ds hlast []
  have hrest : Tracks f (fun later all => ∃ moved,
      List.Forall₂ Declaration.SameText later moved ∧ all = ds.map DeclarationTree.value ++ moved)
      (do return (← declarationsAfter n []).reverse)
      (do return (← declarationsAfter n
        ((ds.map DeclarationTree.value).reverse ++ [])).reverse) := by
    refine (tracks_declarationsAfter hf _).bind ?_
    rintro later _ ⟨moved, hmoved, rfl⟩
    exact tracks_pure ⟨moved.reverse, List.rel_reverse hmoved, by simp⟩
  have hrun : (declarations n).run
        (ds.flatMap DeclarationTree.tokens ++ second.map (Token.relabel f)) =
      (do return (← declarationsAfter n ((ds.map DeclarationTree.value).reverse ++ [])).reverse :
        Parser (List Declaration)).run (second.map (Token.relabel f)) := by
    change (declarationsAfter n [] >>= fun values => pure values.reverse).run _ = _
    rw [run_bind, run_bind, hskip]
  rw [hrun]
  exact hrest second

/-- Tokens with changed spans are read like the tokens themselves. -/
theorem alike_declarations {f : Span → Span}
    (hf : ∀ a b : Span, f (a.cover b) = (f a).cover (f b)) (tokens : List Token) :
    Alike f (List.Forall₂ Declaration.SameText) ((declarations n).run tokens)
      ((declarations n).run (tokens.map (Token.relabel f))) := by
  have hnone : (declarations n).run [] = .ok ([], []) :=
    run_declarations_eq_ok.mpr ⟨[], rfl, rfl, rfl⟩
  have hends : ∀ d ∈ ([] : List Declaration).getLast?, d.isFunction = false →
      Ends typeContinues tokens := by simp
  have hrun := run_declarations_append hf hnone hends
  rw [List.nil_append] at hrun
  generalize (declarations n).run tokens = r at hrun ⊢
  generalize (declarations n).run (tokens.map (Token.relabel f)) = r' at hrun ⊢
  cases hrun with
  | ok rest hvalues =>
    obtain ⟨moved, hmoved, rfl⟩ := hvalues
    exact .ok rest hmoved
  | error e => exact .error e

/-- No declaration goes on with what may begin one. -/
theorem ends_of_run_declarations {input : List Token} {values : List Declaration}
    {rest : List Token} (h : (declarations n).run input = .ok (values, rest)) :
    Ends typeContinues input := by
  obtain ⟨ds, rfl, -, -⟩ := run_declarations_eq_ok.mp h
  cases ds with
  | nil => exact ends_nil typeContinues
  | cons d ds =>
    exact DeclarationTree.begins.ends (fun _ => typeContinues_of_declarationStarts) d _

end

end Grammar

theorem Span.shift_cover (file delta : Nat) (a b : Span) :
    (a.cover b).shift file delta = (a.shift file delta).cover (b.shift file delta) := by
  simp only [shift, cover, Nat.add_min_add_right, Nat.add_max_add_right]

def SyntaxError.shift (file delta : Nat) (e : SyntaxError) : SyntaxError :=
  ⟨e.fault, e.found, e.span.shift file delta⟩

theorem SyntaxError.ofFailure_relabel (file delta : Nat) (finish : Span) (e : Failure) :
    ofFailure (finish.shift file delta) (e.relabel (Span.shift file delta)) =
      (ofFailure finish e).shift file delta :=
  match e with
  | .over _ _ | .here _ [] | .here _ (_ :: _) => rfl

namespace Token

/-- Moved tokens behind others, and where the two texts end together. -/
theorem append_map_relabel (f : Span → Span) (first second : List Token) (t : Token) :
    first ++ (second ++ [t]).map (relabel f) =
      (first ++ second.map (relabel f)) ++ [t.relabel f] := by
  simp

theorem ne_endOfText_of_mem_append {f : Span → Span} {first second : List Token}
    (hfirst : ∀ t ∈ first, t.kind ≠ .endOfText) (hsecond : ∀ t ∈ second, t.kind ≠ .endOfText) :
    ∀ t ∈ first ++ second.map (relabel f), t.kind ≠ .endOfText := by
  intro t ht
  cases List.mem_append.mp ht with
  | inl ht => exact hfirst t ht
  | inr ht =>
    obtain ⟨u, hu, rfl⟩ := List.mem_map.mp ht
    exact hsecond u hu

end Token

namespace Program
open Scriptwright.Parser

theorem javaScript_of_sameText {values values' : List Declaration}
    (h : List.Forall₂ Declaration.SameText values values') (span span' : Span) :
    javaScript ⟨values', span'⟩ = javaScript ⟨values, span⟩ := by
  have htexts : values'.map (Declaration.javaScript 0) = values.map (Declaration.javaScript 0) := by
    induction h with
    | nil => rfl
    | cons hd _ ih => rw [List.map_cons, List.map_cons, hd 0, ih]
  rw [javaScript, javaScript, htexts]

theorem javaScript_append_of_sameText {before later moved : List Declaration}
    (h : List.Forall₂ Declaration.SameText later moved) (span span₁ span₂ : Span) :
    javaScript ⟨before ++ moved, span⟩ =
      javaScript ⟨before, span₁⟩ ++ javaScript ⟨later, span₂⟩ := by
  rw [← javaScript_of_sameText h span₂ span₂]
  simp only [javaScript, List.map_append, String.join_append]

section
variable {file : Nat} {before : List Token} (hbefore : ∀ t ∈ before, t.kind ≠ .endOfText)
  {t : Token} (ht : t.kind = .endOfText)
include hbefore ht

theorem ofTokens_finish_eq_ok {p : Program} :
    ofTokens file (before ++ [t]) = .ok p ↔
      ∃ values rest, (Parser.declarations nestingLimit).run before = .ok (values, rest) ∧
        p = ⟨values, ⟨file, 0, Token.lastStop before⟩⟩ := by
  rw [Grammar.ofTokens_eq_run, Token.body_append_cons hbefore ht]
  cases (Parser.declarations nestingLimit).run before with
  | error e => simp
  | ok r =>
    obtain ⟨values, rest⟩ := r
    simp [eq_comm]

theorem ofTokens_finish_eq_error {e : SyntaxError} :
    ofTokens file (before ++ [t]) = .error e ↔
      ∃ failure, (Parser.declarations nestingLimit).run before = .error failure ∧
        e = .ofFailure t.span failure := by
  rw [ofTokens_eq_error, Token.body_append_cons hbefore ht,
    Token.finishSpan_append_cons hbefore file ht]

end

/-- No tokens are the program without declarations. -/
theorem ofTokens_finish (file : Nat) (t : Token) (ht : t.kind = .endOfText) :
    ofTokens file ([] ++ [t]) = .ok ⟨[], ⟨file, 0, 0⟩⟩ :=
  (ofTokens_finish_eq_ok (List.forall_mem_nil _) ht).mpr
    ⟨[], [], Grammar.run_declarations_eq_ok.mpr ⟨[], rfl, rfl, rfl⟩, rfl⟩

section
variable {file : Nat} {first second : List Token}
  (hfirst : ∀ t ∈ first, t.kind ≠ .endOfText) (hsecond : ∀ t ∈ second, t.kind ≠ .endOfText)
  {t u : Token} (ht : t.kind = .endOfText) (hu : u.kind = .endOfText)
  {p₁ : Program} (h₁ : ofTokens file (first ++ [t]) = .ok p₁) (delta : Nat)
include hfirst hsecond ht hu h₁

theorem ofTokens_append {p₂ : Program} (h₂ : ofTokens file (second ++ [u]) = .ok p₂) :
    ∃ p, ofTokens file (first ++ (second ++ [u]).map (Token.relabel (Span.shift file delta))) =
        .ok p ∧ p.javaScript = p₁.javaScript ++ p₂.javaScript := by
  obtain ⟨values₁, rest₁, hrun₁, rfl⟩ := (ofTokens_finish_eq_ok hfirst ht).mp h₁
  obtain ⟨values₂, rest₂, hrun₂, rfl⟩ := (ofTokens_finish_eq_ok hsecond hu).mp h₂
  have hends := Grammar.ends_of_run_declarations hrun₂
  have hrun := Grammar.run_declarations_append (Span.shift_cover file delta) hrun₁
    fun _ _ _ => hends
  rw [hrun₂] at hrun
  generalize hall : (Parser.declarations nestingLimit).run (first ++ second.map _) = r at hrun
  cases hrun with
  | ok rest hvalues =>
    obtain ⟨moved, hmoved, rfl⟩ := hvalues
    rw [Token.append_map_relabel]
    have hbefore := Token.ne_endOfText_of_mem_append (f := Span.shift file delta) hfirst hsecond
    have hfinish : (u.relabel (Span.shift file delta)).kind = .endOfText := hu
    exact ⟨_, (ofTokens_finish_eq_ok hbefore hfinish).mpr ⟨_, _, hall, rfl⟩,
      javaScript_append_of_sameText hmoved _ _ _⟩

theorem ofTokens_append_error (hlast : ∀ d ∈ p₁.declarations.getLast?, d.isFunction = true)
    {e : SyntaxError} (h₂ : ofTokens file (second ++ [u]) = .error e) :
    ofTokens file (first ++ (second ++ [u]).map (Token.relabel (Span.shift file delta))) =
      .error (e.shift file delta) := by
  obtain ⟨values₁, rest₁, hrun₁, rfl⟩ := (ofTokens_finish_eq_ok hfirst ht).mp h₁
  obtain ⟨failure, hrun₂, rfl⟩ := (ofTokens_finish_eq_error hsecond hu).mp h₂
  have hends : ∀ d ∈ values₁.getLast?, d.isFunction = false →
      Grammar.Ends Grammar.typeContinues second := by
    intro d hd hplain
    cases (hlast d hd).symm.trans hplain
  have hrun := Grammar.run_declarations_append (Span.shift_cover file delta) hrun₁ hends
  rw [hrun₂] at hrun
  generalize hall : (Parser.declarations nestingLimit).run (first ++ second.map _) = r at hrun
  cases hrun with
  | error failure =>
    rw [Token.append_map_relabel]
    have hbefore := Token.ne_endOfText_of_mem_append (f := Span.shift file delta) hfirst hsecond
    have hfinish : (u.relabel (Span.shift file delta)).kind = .endOfText := hu
    exact (ofTokens_finish_eq_error hbefore hfinish).mpr
      ⟨_, hall, (SyntaxError.ofFailure_relabel file delta u.span failure).symm⟩

end

end Program

def Error.shift (file delta : Nat) : Error → Error
  | .lexical code message span => .lexical code message (span.shift file delta)
  | .syntactic code message span => .syntactic code message (span.shift file delta)
  | e => e

theorem scan_append {file : Nat} {first : String} {ts : List Token} (h : scan file first = .ok ts)
    (second : String) :
    ∃ body stop, ts = body ++ [.finish file stop] ∧ (∀ t ∈ body, t.kind ≠ .endOfText) ∧
      scan file (first ++ "\n" ++ second) =
        (Scan.shifted file (byteLength first.toList + 1)
          (List.map (Token.relabel (Span.shift file (byteLength first.toList + 1))))
          (scan file second)).map (body ++ ·) := by
  obtain ⟨body, stop, hts, hbody, happend⟩ := Scan.tokens_append h second.toList
  refine ⟨body, stop, hts, hbody, ?_⟩
  rw [scan, toList_append_line, happend, Scan.tokens_shift]
  rfl

namespace SourceFile

theorem program_eq_ok {f : SourceFile} {p : Program} :
    f.program = .ok p ↔
      ∃ tokens, scan f.id f.text = .ok tokens ∧ Program.ofTokens f.id tokens = .ok p := by
  unfold program
  cases scan f.id f.text with
  | error e => simp
  | ok tokens => cases hp : Program.ofTokens f.id tokens <;> simp [hp]

theorem program_eq_error {f : SourceFile} {e : Error} :
    f.program = .error e ↔
      (∃ fault, scan f.id f.text = .error fault ∧ e = .ofScan fault) ∨
      ∃ tokens fault, scan f.id f.text = .ok tokens ∧
        Program.ofTokens f.id tokens = .error fault ∧ e = .ofSyntax fault := by
  unfold program
  cases scan f.id f.text with
  | error fault => simp [@eq_comm _ e]
  | ok tokens => cases hp : Program.ofTokens f.id tokens <;> simp [hp, @eq_comm _ e]

section
variable {id : Nat} {path first second : String} {p₁ : Program}
  (h₁ : program ⟨id, path, first⟩ = .ok p₁)
include h₁

theorem program_append {p₂ : Program} (h₂ : program ⟨id, path, second⟩ = .ok p₂) :
    ∃ p, program ⟨id, path, first ++ "\n" ++ second⟩ = .ok p ∧
      p.javaScript = p₁.javaScript ++ p₂.javaScript := by
  obtain ⟨_, hscan₁, hp₁⟩ := program_eq_ok.mp h₁
  obtain ⟨_, hscan₂, hp₂⟩ := program_eq_ok.mp h₂
  obtain ⟨body₁, stop₁, rfl, hbody₁, happend⟩ := scan_append hscan₁ second
  obtain ⟨body₂, stop₂, rfl, hbody₂, -⟩ := scan_append hscan₂ ""
  obtain ⟨p, hp, htext⟩ := Program.ofTokens_append hbody₁ hbody₂ rfl rfl hp₁
    (byteLength first.toList + 1) hp₂
  rw [hscan₂] at happend
  exact ⟨p, program_eq_ok.mpr ⟨_, happend, hp⟩, htext⟩

theorem program_append_error (hlast : ∀ d ∈ p₁.declarations.getLast?, d.isFunction = true)
    {e : Error} (h₂ : program ⟨id, path, second⟩ = .error e) :
    program ⟨id, path, first ++ "\n" ++ second⟩ =
      .error (e.shift id (byteLength first.toList + 1)) := by
  obtain ⟨_, hscan₁, hp₁⟩ := program_eq_ok.mp h₁
  obtain ⟨body₁, stop₁, rfl, hbody₁, happend⟩ := scan_append hscan₁ second
  rw [program_eq_error]
  cases program_eq_error.mp h₂ with
  | inl h =>
    obtain ⟨fault, hscan₂, rfl⟩ := h
    rw [hscan₂] at happend
    exact .inl ⟨_, happend, rfl⟩
  | inr h =>
    obtain ⟨_, fault, hscan₂, hfault, rfl⟩ := h
    obtain ⟨body₂, stop₂, rfl, hbody₂, -⟩ := scan_append hscan₂ ""
    have happended := Program.ofTokens_append_error hbody₁ hbody₂ rfl rfl hp₁
      (byteLength first.toList + 1) hlast hfault
    rw [hscan₂] at happend
    exact .inr ⟨_, _, happend, happended, rfl⟩

end

/-- An error is found in the file that is read: its span stays the same when it is put
there, `0` bytes further on. -/
theorem shift_error {f : SourceFile} {e : Error} (h : f.program = .error e) :
    e.shift f.id 0 = e := by
  have hshift : scan f.id f.text =
      Scan.shifted f.id 0 (List.map (Token.relabel (Span.shift f.id 0))) (scan f.id f.text) :=
    Scan.tokens_shift f.id 0 0 f.text.toList
  cases program_eq_error.mp h with
  | inl h =>
    obtain ⟨fault, hscan, rfl⟩ := h
    rw [hscan] at hshift
    have hspan : fault.span = fault.span.shift f.id 0 :=
      congrArg ScanError.span (Except.error.inj hshift)
    rw [Error.ofScan, Error.shift, ← hspan]
  | inr h =>
    obtain ⟨_, fault, hscan, hfault, rfl⟩ := h
    rw [hscan] at hshift
    have htokens := Except.ok.inj hshift
    obtain ⟨body, stop, rfl, hbody, -⟩ := scan_append hscan ""
    have hnone := Program.ofTokens_finish f.id (Token.finish f.id 0) rfl
    have hmoved := Program.ofTokens_append_error (List.forall_mem_nil _) hbody rfl rfl hnone 0
      nofun hfault
    rw [List.nil_append, ← htokens, hfault] at hmoved
    have hspan : fault.span = fault.span.shift f.id 0 :=
      congrArg SyntaxError.span (Except.error.inj hmoved)
    rw [Error.ofSyntax, Error.shift, ← hspan]

end SourceFile

theorem Error.locate_add {e : Error} {path text : String}
    (h : SourceFile.program ⟨0, path, text⟩ = .error e) (delta : Nat) (whole : String) :
    ∃ code message start,
      e.locate (SourceMap.empty.add path text) =
        .located code message path (SourceFile.position ⟨0, path, text⟩ start) ∧
      (e.shift 0 delta).locate (SourceMap.empty.add path whole) =
        .located code message path (SourceFile.position ⟨0, path, whole⟩ (start + delta)) := by
  have hshift := SourceFile.shift_error h
  cases SourceFile.program_eq_error.mp h with
  | inl h =>
    obtain ⟨fault, -, rfl⟩ := h
    have hspan : fault.span.shift 0 0 = fault.span := (Error.lexical.inj hshift).2.2
    refine ⟨fault.fault.code, fault.fault.message, fault.span.start, ?_, rfl⟩
    rw [Error.ofScan, ← hspan]
    rfl
  | inr h =>
    obtain ⟨_, fault, -, -, rfl⟩ := h
    have hspan : fault.span.shift 0 0 = fault.span := (Error.syntactic.inj hshift).2.2
    refine ⟨fault.fault.code, fault.message, fault.span.start, ?_, rfl⟩
    rw [Error.ofSyntax, ← hspan]
    rfl

theorem compile_eq_ok {text path javaScript : String} :
    compile text path = .ok javaScript ↔
      ∃ p, SourceFile.program ⟨0, path, text⟩ = .ok p ∧ p.javaScript = javaScript := by
  unfold compile
  cases SourceFile.program ⟨0, path, text⟩ <;> simp

theorem compile_eq_error {text path : String} {e : Error} :
    compile text path = .error e ↔
      ∃ found, SourceFile.program ⟨0, path, text⟩ = .error found ∧
        found.locate (SourceMap.empty.add path text) = e := by
  unfold compile
  cases SourceFile.program ⟨0, path, text⟩ <;> simp

/-- Texts are compiled one behind the other as they are compiled alone. A fault in the
second text is reported with the same words and in the same column, below the lines of the
first, unless the first ends with the name of a type, which what follows may go on with. -/
theorem compile_append (first second path : String) {javaScript : String}
    (h : compile first path = .ok javaScript) :
    (∀ more, compile second path = .ok more →
      compile (first ++ "\n" ++ second) path = .ok (javaScript ++ more)) ∧
    (∀ e, compile second path = .error e →
      (∀ p, SourceFile.program ⟨0, path, first⟩ = .ok p →
        ∀ d ∈ p.declarations.getLast?, d.isFunction = true) →
      ∃ code message start, e = .located code message path start ∧
        compile (first ++ "\n" ++ second) path =
          .error (.located code message path
            ⟨start.line + (1 + first.toList.count '\n'), start.column⟩)) := by
  obtain ⟨p₁, hp₁, rfl⟩ := compile_eq_ok.mp h
  constructor
  · intro more hmore
    obtain ⟨p₂, hp₂, rfl⟩ := compile_eq_ok.mp hmore
    exact compile_eq_ok.mpr (SourceFile.program_append hp₁ hp₂)
  · intro e he hlast
    obtain ⟨found, hfound, rfl⟩ := compile_eq_error.mp he
    have hprogram := SourceFile.program_append_error hp₁ (hlast p₁ hp₁) hfound
    obtain ⟨code, message, start, halone, hbehind⟩ := Error.locate_add hfound
      (byteLength first.toList + 1) (first ++ "\n" ++ second)
    refine ⟨code, message, _, halone, compile_eq_error.mpr ⟨_, hprogram, ?_⟩⟩
    rw [hbehind, SourceFile.position_append]

/-- A comment that ends the first text ends with the line, and the place of the fault is
counted on from there. -/
theorem compile_append_comment :
    compile "func f = \x7b\x7d \x7b\x7d // f" "a" = .ok "function f() \x7b\n\x7d\n\n" ∧
    compile "type T = n" "a" = .ok "// Type: T\n" ∧
    compile ("func f = \x7b\x7d \x7b\x7d // f" ++ "\n" ++ "type T = n") "a" =
      .ok ("function f() \x7b\n\x7d\n\n" ++ "// Type: T\n") ∧
    compile "\n  func" "a" =
      .error (.located "E0100" "Expected function name, got end of input" "a" ⟨2, 7⟩) ∧
    compile ("func f = \x7b\x7d \x7b\x7d // f" ++ "\n" ++ "\n  func") "a" =
      .error (.located "E0100" "Expected function name, got end of input" "a" ⟨3, 7⟩) := by
  have hfirst : compile "func f = \x7b\x7d \x7b\x7d // f" "a" =
      .ok "function f() \x7b\n\x7d\n\n" := by decide +kernel
  have hsecond : compile "type T = n" "a" = .ok "// Type: T\n" := by decide +kernel
  have hfault : compile "\n  func" "a" =
      .error (.located "E0100" "Expected function name, got end of input" "a" ⟨2, 7⟩) := by
    decide +kernel
  have hends : ∀ p ∈ (SourceFile.program ⟨0, "a", "func f = \x7b\x7d \x7b\x7d // f"⟩).toOption,
      ∀ d ∈ p.declarations.getLast?, d.isFunction = true := by
    decide +kernel
  have hlast : ∀ p, SourceFile.program ⟨0, "a", "func f = \x7b\x7d \x7b\x7d // f"⟩ = .ok p →
      ∀ d ∈ p.declarations.getLast?, d.isFunction = true := by
    intro p hp
    exact hends p (by rw [hp]; rfl)
  obtain ⟨code, message, start, hlocated, hbehind⟩ :=
    (compile_append _ _ "a" hfirst).2 _ hfault hlast
  cases hlocated
  exact ⟨hfirst, hsecond, (compile_append _ _ "a" hfirst).1 _ hsecond, hfault, hbehind⟩

end Scriptwright
