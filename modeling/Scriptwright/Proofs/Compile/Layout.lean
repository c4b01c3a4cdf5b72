import Scriptwright.Proofs.Diagnostic
import Scriptwright.Proofs.Token.Layout

/-!
# Layout and comments carry no meaning

Two texts with the same lexemes have the same tokens but for their spans. The parser never
looks at a span, so it takes the same steps for both: it reads declarations of the same
JavaScript text, or it fails in the same way at the same token. What is compiled and what
is reported, the place of the fault apart, is the same.
-/

namespace Scriptwright
open Lexicon

theorem Token.lexeme_unplaced (tokens : List Token) :
    (tokens.map unplaced).map (·.lexeme) = tokens.map (·.lexeme) := by
  rw [List.map_map]
  rfl

theorem Lexicon.lexeme_unplaced (lexemes : List Lexeme) :
    (lexemes.map Lexeme.unplaced).map (·.lexeme) = lexemes.map Lexeme.spelling := by
  rw [List.map_map]
  rfl

/-- The text has these lexemes, in whichever file it stands. -/
def ScansTo (text : String) (lexemes : List Lexeme) : Prop :=
  ∀ file, ∃ ts, scan file text = .ok ts ∧
    ts.map Token.unplaced = lexemes.map Lexeme.unplaced ++ [.finish 0 0]

theorem scansTo_of_cut {text : String} {cut : Cut} (h : cut.Of text) :
    ScansTo text cut.lexemes := by
  intro file
  refine ⟨cut.tokens file 0, ?_, cut.tokens_unplaced file 0⟩
  rw [scan, ← h.characters]
  exact cut.scan file 0 h.longest

theorem exists_scansTo {file : Nat} {text : String} {ts : List Token}
    (h : scan file text = .ok ts) :
    ∃ lexemes, ScansTo text lexemes ∧
      (Token.body ts).map (·.lexeme) = lexemes.map Lexeme.spelling := by
  obtain ⟨cut, hcut, hlongest⟩ := exists_cut h
  have hscans := scansTo_of_cut ⟨hcut, hlongest⟩
  refine ⟨cut.lexemes, hscans, ?_⟩
  obtain ⟨_, hts, hunplaced⟩ := hscans file
  cases h.symm.trans hts
  obtain ⟨body, stop, rfl, hbody, -⟩ := scan_append h ""
  rw [List.map_append] at hunplaced
  have hlexemes := (List.append_inj' hunplaced rfl).1
  rw [Token.body_append_cons hbody rfl, ← Token.lexeme_unplaced, hlexemes,
    Lexicon.lexeme_unplaced]

/-- A text in another layout has the same lexemes. -/
theorem scansTo_of_laidOut {lexemes : List Lexeme} {text : String}
    (h : LaidOut (lexemes.map Lexeme.spelling) text) : ScansTo text lexemes := by
  obtain ⟨lead, cs, htext, hspread⟩ := h
  obtain ⟨cut, rfl, hcut, hlongest⟩ := exists_cut_of_spread hspread lead
  exact scansTo_of_cut ⟨hcut.trans htext.symm, hlongest⟩

theorem SyntaxError.fault_ofFailure_relabel (f : Span → Span) (finish finish' : Span)
    (e : Failure) :
    (ofFailure finish (e.relabel f)).fault = (ofFailure finish' e).fault ∧
      (ofFailure finish (e.relabel f)).found = (ofFailure finish' e).found :=
  match e with
  | .over _ _ | .here _ [] | .here _ (_ :: _) => ⟨rfl, rfl⟩

namespace Program

/-- Two results of parsing that do not differ but in places. -/
inductive Agrees : Except SyntaxError Program → Except SyntaxError Program → Prop
  | ok {p p' : Program} (h : p'.javaScript = p.javaScript) : Agrees (.ok p) (.ok p')
  | error {e e' : SyntaxError} (hfault : e'.fault = e.fault) (hfound : e'.found = e.found) :
      Agrees (.error e) (.error e')

theorem Agrees.symm {r r' : Except SyntaxError Program} (h : Agrees r r') : Agrees r' r := by
  cases h with
  | ok h => exact .ok h.symm
  | error hfault hfound => exact .error hfault.symm hfound.symm

theorem Agrees.trans {r r' r'' : Except SyntaxError Program} (h : Agrees r r')
    (h' : Agrees r' r'') : Agrees r r'' := by
  cases h with
  | ok h =>
    cases h' with
    | ok h' => exact .ok (h'.trans h)
  | error hfault hfound =>
    cases h' with
    | error hfault' hfound' => exact .error (hfault'.trans hfault) (hfound'.trans hfound)

/-- Places are of no use to the parser but for being passed on. -/
theorem ofTokens_unplaced (file file' : Nat) (tokens : List Token) :
    Agrees (ofTokens file tokens) (ofTokens file' (tokens.map Token.unplaced)) := by
  have hbody : Token.body (tokens.map Token.unplaced) = (Token.body tokens).map Token.unplaced := by
    rw [Token.body, List.takeWhile_map]
    rfl
  have hrun := Grammar.alike_declarations (n := nestingLimit) (f := fun _ => .point 0 0)
    (fun _ _ => rfl) (Token.body tokens)
  rw [Grammar.ofTokens_eq_run, Grammar.ofTokens_eq_run, hbody]
  generalize (Parser.declarations nestingLimit).run (Token.body tokens) = r at hrun ⊢
  change Parser.Alike _ _ r ((Parser.declarations nestingLimit).run
    ((Token.body tokens).map Token.unplaced)) at hrun
  generalize (Parser.declarations nestingLimit).run
    ((Token.body tokens).map Token.unplaced) = r' at hrun ⊢
  cases hrun with
  | ok rest hvalues => exact .ok (javaScript_of_sameText hvalues _ _)
  | error e =>
    obtain ⟨hfault, hfound⟩ := SyntaxError.fault_ofFailure_relabel (fun _ => .point 0 0)
      (Token.finishSpan file' (tokens.map Token.unplaced)) (Token.finishSpan file tokens) e
    exact .error hfault hfound

theorem ofTokens_agrees (file file' : Nat) {tokens tokens' : List Token}
    (h : tokens'.map Token.unplaced = tokens.map Token.unplaced) :
    Agrees (ofTokens file tokens) (ofTokens file' tokens') := by
  have hsecond := ofTokens_unplaced file' 0 tokens'
  rw [h] at hsecond
  exact (ofTokens_unplaced file 0 tokens).trans hsecond.symm

end Program

/-- A text whose tokens do not parse is refused with the fault that the parser finds. -/
theorem compile_of_syntaxError (path : String) {text : String} {ts : List Token}
    (hscan : scan 0 text = .ok ts) {e : SyntaxError} (h : Program.ofTokens 0 ts = .error e) :
    ∃ start, compile text path = .error (.located e.fault.code e.message path start) := by
  have hprogram : SourceFile.program ⟨0, path, text⟩ = .error (.ofSyntax e) :=
    SourceFile.program_eq_error.mpr (.inr ⟨ts, e, hscan, h, rfl⟩)
  have hfile : (SourceMap.empty.add path text).get? 0 = some ⟨0, path, text⟩ := rfl
  obtain ⟨code, span, start, stop, hcode, -, hlocated, -⟩ :=
    SourceFile.error_reported hfile hprogram
  cases hcode
  exact ⟨start, compile_eq_error.mpr ⟨_, hprogram, hlocated⟩⟩

/-- Texts of the same lexemes are compiled alike. -/
theorem compile_of_scansTo {lexemes : List Lexeme} {text text' : String}
    (h : ScansTo text lexemes) (h' : ScansTo text' lexemes) (path path' : String) :
    (∃ javaScript, compile text path = .ok javaScript ∧ compile text' path' = .ok javaScript) ∨
      ∃ code message start start',
        compile text path = .error (.located code message path start) ∧
        compile text' path' = .error (.located code message path' start') := by
  obtain ⟨ts, hts, hunplaced⟩ := h 0
  obtain ⟨ts', hts', hunplaced'⟩ := h' 0
  have hagrees := Program.ofTokens_agrees 0 0 (hunplaced'.trans hunplaced.symm)
  generalize hr : Program.ofTokens 0 ts = r at hagrees
  generalize hr' : Program.ofTokens 0 ts' = r' at hagrees
  cases hagrees with
  | @ok p p' htext =>
    refine .inl ⟨p.javaScript, ?_, ?_⟩
    · exact compile_eq_ok.mpr ⟨p, SourceFile.program_eq_ok.mpr ⟨ts, hts, hr⟩, rfl⟩
    · exact compile_eq_ok.mpr ⟨p', SourceFile.program_eq_ok.mpr ⟨ts', hts', hr'⟩, htext⟩
  | @error e e' hfault hfound =>
    obtain ⟨start, hcompile⟩ := compile_of_syntaxError path hts hr
    obtain ⟨start', hcompile'⟩ := compile_of_syntaxError path' hts' hr'
    have hmessage : e'.message = e.message := by
      rw [SyntaxError.message, SyntaxError.message, hfault, hfound]
    rw [hfault, hmessage] at hcompile'
    exact .inr ⟨_, _, start, start', hcompile, hcompile'⟩

/-- The lexemes of a text, written down in any layout, are scanned to the same tokens, and
the two texts are compiled to the same JavaScript or refused with the same code and the
same message. -/
theorem compile_of_laidOut {file : Nat} {text : String} {ts : List Token}
    (hscan : scan file text = .ok ts) {text' : String}
    (hlayout : LaidOut ((Token.body ts).map (·.lexeme)) text') (path path' : String) :
    (∃ ts', scan file text' = .ok ts' ∧ ts'.map Token.unplaced = ts.map Token.unplaced) ∧
    ((∃ javaScript, compile text path = .ok javaScript ∧ compile text' path' = .ok javaScript) ∨
      ∃ code message start start',
        compile text path = .error (.located code message path start) ∧
        compile text' path' = .error (.located code message path' start')) := by
  obtain ⟨lexemes, hscans, hlexemes⟩ := exists_scansTo hscan
  rw [hlexemes] at hlayout
  have hscans' := scansTo_of_laidOut hlayout
  refine ⟨?_, compile_of_scansTo hscans hscans' path path'⟩
  obtain ⟨_, hts, hunplaced⟩ := hscans file
  obtain ⟨ts', hts', hunplaced'⟩ := hscans' file
  cases hscan.symm.trans hts
  exact ⟨ts', hts', hunplaced'.trans hunplaced.symm⟩

/-- A comment in front, one behind the sign of a division, and blanks where there were
none: the quotient is read again. -/
theorem compile_laidOut_quotient :
    LaidOut ["func", "f", "=", "\x7b", "\x7d", "\x7b", "return", "1", "/", "x", "\x7d"]
      "//a\nfunc f =\t\x7b \x7d \x7b return 1 / //b\n\r\nx \x7d" ∧
    compile "func f=\x7b\x7d\x7breturn 1/x\x7d" "a" =
      .ok "function f() \x7b\n  return 1 / x;\n\x7d\n\n" ∧
    compile "//a\nfunc f =\t\x7b \x7d \x7b return 1 / //b\n\r\nx \x7d" "b" =
      .ok "function f() \x7b\n  return 1 / x;\n\x7d\n\n" := by
  have hspread : Spread ["func", "f", "=", "\x7b", "\x7d", "\x7b", "return", "1", "/", "x", "\x7d"]
      "func f =\t\x7b \x7d \x7b return 1 / //b\n\r\nx \x7d".toList :=
    .cons "func" ⟨⟨' ', rfl⟩, []⟩ <| .cons "f" ⟨⟨' ', rfl⟩, []⟩ <| .cons "=" ⟨⟨'\t', rfl⟩, []⟩ <|
    .cons "\x7b" ⟨⟨' ', rfl⟩, []⟩ <| .cons "\x7d" ⟨⟨' ', rfl⟩, []⟩ <|
    .cons "\x7b" ⟨⟨' ', rfl⟩, []⟩ <| .cons "return" ⟨⟨' ', rfl⟩, []⟩ <|
    .cons "1" ⟨⟨' ', rfl⟩, []⟩ <|
    .cons "/" ⟨⟨' ', rfl⟩, [.comment ⟨['b'], List.all_eq_true.mp rfl⟩, .blank ⟨'\r', rfl⟩,
      .blank ⟨'\n', rfl⟩]⟩ <|
    .cons "x" ⟨⟨' ', rfl⟩, []⟩ <| .last "\x7d"
  have hlayout : LaidOut ["func", "f", "=", "\x7b", "\x7d", "\x7b", "return", "1", "/", "x", "\x7d"]
      "//a\nfunc f =\t\x7b \x7d \x7b return 1 / //b\n\r\nx \x7d" :=
    ⟨[.comment ⟨['a'], List.all_eq_true.mp rfl⟩], _, rfl, hspread⟩
  have hcompile : compile "func f=\x7b\x7d\x7breturn 1/x\x7d" "a" =
      .ok "function f() \x7b\n  return 1 / x;\n\x7d\n\n" := by
    decide +kernel
  have hwords : (scan 0 "func f=\x7b\x7d\x7breturn 1/x\x7d").toOption.map
      (fun ts => (Token.body ts).map (·.lexeme)) =
        some ["func", "f", "=", "\x7b", "\x7d", "\x7b", "return", "1", "/", "x", "\x7d"] := by
    decide +kernel
  obtain ⟨ts, hts, hbody⟩ := Option.map_eq_some_iff.mp hwords
  have hscan := eq_ok_of_mem_toOption hts
  rw [← hbody] at hlayout
  obtain ⟨-, hboth | hneither⟩ := compile_of_laidOut hscan hlayout "a" "b"
  · obtain ⟨javaScript, hfirst, hsecond⟩ := hboth
    cases hcompile.symm.trans hfirst
    rw [hbody] at hlayout
    exact ⟨hlayout, hcompile, hsecond⟩
  · obtain ⟨_, _, _, _, hfault, -⟩ := hneither
    cases hcompile.symm.trans hfault

end Scriptwright
