import Mathlib.Data.List.TakeWhile
import Scriptwright.Proofs.Grammar.Program
import Scriptwright.Proofs.Parser.Cursor.Program
import Scriptwright.Proofs.Parser.Lookahead

/-!
# Where tokens end

The program that tokens spell is the one of the tokens up to the first `endOfText`, and
tokens without one are read as if it stood behind the last of them. A cursor that moves
through all tokens reads no other program. It has an answer for every list of tokens: it
never looks back from the first token, nor at a place that has none. A fault is reported at
one of the tokens up to the `endOfText`, this one included, unless it is reported over
tokens that have been read.
-/

namespace Scriptwright

namespace Token

/-- The tokens up to the first `endOfText`, which is the last of them. -/
def upToEnd? : List Token → Option (List Token)
  | [] => none
  | t :: rest => if t.kind = .endOfText then some [t] else (upToEnd? rest).map (t :: ·)

/-- The tokens up to the first `endOfText`, which is added behind them if there is none. -/
def closed (file : Nat) (tokens : List Token) : List Token :=
  (upToEnd? tokens).getD (tokens ++ [finish file (lastStop tokens)])

theorem body_ne_endOfText (tokens : List Token) : ∀ t ∈ body tokens, t.kind ≠ .endOfText := by
  intro t ht
  simpa using List.mem_takeWhile_imp ht

section
variable {before : List Token} (hbefore : ∀ t ∈ before, t.kind ≠ .endOfText)
include hbefore

theorem body_of_ne : body before = before := by
  have hall : ∀ u ∈ before, (u.kind != .endOfText) = true := by simpa using hbefore
  exact List.takeWhile_eq_self_iff.mpr hall

theorem finishSpan_of_ne (file : Nat) : finishSpan file before = .point file (lastStop before) := by
  have hnone : before.find? (·.kind == .endOfText) = none := by simpa using hbefore
  simp [finishSpan, hnone]

theorem body_append_cons {t : Token} (ht : t.kind = .endOfText) (after : List Token) :
    body (before ++ t :: after) = before := by
  have hall : ∀ u ∈ before, (u.kind != .endOfText) = true := by simpa using hbefore
  rw [body, List.takeWhile_append_of_pos hall]
  simp [ht]

theorem finishSpan_append_cons (file : Nat) {t : Token} (ht : t.kind = .endOfText)
    (after : List Token) : finishSpan file (before ++ t :: after) = t.span := by
  have hnone : before.find? (·.kind == .endOfText) = none := by simpa using hbefore
  simp [finishSpan, List.find?_append, hnone, ht]

end

theorem upToEnd?_eq_some {tokens ts : List Token} (h : upToEnd? tokens = some ts) :
    ∃ before t after, (∀ u ∈ before, u.kind ≠ .endOfText) ∧ t.kind = .endOfText ∧
      tokens = before ++ t :: after ∧ ts = before ++ [t] := by
  induction tokens generalizing ts with
  | nil => cases h
  | cons t rest ih =>
    rw [upToEnd?] at h
    split_ifs at h with ht
    · cases h
      exact ⟨[], t, rest, List.forall_mem_nil _, ht, rfl, rfl⟩
    · obtain ⟨ts', hts', rfl⟩ := Option.map_eq_some_iff.mp h
      obtain ⟨before, u, after, hbefore, hu, rfl, rfl⟩ := ih hts'
      exact ⟨t :: before, u, after, List.forall_mem_cons.mpr ⟨ht, hbefore⟩, hu, rfl, rfl⟩

theorem ne_endOfText_of_upToEnd?_eq_none {tokens : List Token} (h : upToEnd? tokens = none) :
    ∀ t ∈ tokens, t.kind ≠ .endOfText := by
  induction tokens with
  | nil => exact List.forall_mem_nil _
  | cons t rest ih =>
    rw [upToEnd?] at h
    split_ifs at h with ht
    exact List.forall_mem_cons.mpr ⟨ht, ih (Option.map_eq_none_iff.mp h)⟩

/-- Closed tokens are those that are read and the token at which the text ends. -/
theorem exists_closed_eq (file : Nat) (tokens : List Token) :
    ∃ t, t.kind = .endOfText ∧ closed file tokens = body tokens ++ [t] ∧
      finishSpan file tokens = t.span := by
  cases h : upToEnd? tokens with
  | none =>
    have hne := ne_endOfText_of_upToEnd?_eq_none h
    refine ⟨finish file (lastStop tokens), rfl, ?_, finishSpan_of_ne hne file⟩
    rw [closed, h, body_of_ne hne]
    rfl
  | some ts =>
    obtain ⟨before, t, after, hbefore, ht, rfl, rfl⟩ := upToEnd?_eq_some h
    refine ⟨t, ht, ?_, finishSpan_append_cons hbefore file ht after⟩
    rw [closed, h, body_append_cons hbefore ht]
    rfl

end Token

namespace SyntaxError

/-- The report of a fault that lies in the token `t`. -/
def atToken (fault : SyntaxFault) (t : Token) : SyntaxError :=
  ⟨fault, if t.kind = .endOfText then "end of input" else t.lexeme, t.span⟩

/-- A failure in front of some of the tokens is reported at the first of these, and at the
end of the text in front of none. -/
theorem exists_atToken {before rest : List Token} (hbefore : ∀ t ∈ before, t.kind ≠ .endOfText)
    (hrest : rest <:+ before) {finish : Token} (hfinish : finish.kind = .endOfText)
    (fault : SyntaxFault) :
    ∃ t ∈ before ++ [finish], ofFailure finish.span (.here fault rest) = atToken fault t := by
  cases rest with
  | nil =>
    refine ⟨finish, List.mem_append_right before (List.mem_singleton.mpr rfl), ?_⟩
    rw [atToken, if_pos hfinish]
    rfl
  | cons t rest =>
    have ht : t ∈ before := hrest.subset List.mem_cons_self
    refine ⟨t, List.mem_append_left [finish] ht, ?_⟩
    rw [atToken, if_neg (hbefore t ht)]
    rfl

end SyntaxError

theorem append_ne_of_head? {a c : String} {x : Char} (ha : a.toList.head? = some x)
    (hc : c.toList.head? ≠ some x) (b : String) : a ++ b ≠ c := by
  rintro rfl
  rw [String.toList_append, List.head?_append, ha] at hc
  exact hc rfl

theorem Expectation.message_ne (found : String) (what : Expectation) :
    what.message found ≠ "No previous token" := by
  cases what with
  | functionName | functionEquals | parametersOpen | parameterName | parametersClose | bodyOpen
  | propertyName | initializerEnd | conditionEnd | forOpen | assignedName =>
    exact append_ne_of_head? (x := 'E') rfl (by decide) found
  | _ => exact of_decide_eq_true rfl

theorem SyntaxError.message_ne (e : SyntaxError) : e.message ≠ "No previous token" := by
  unfold message
  cases e.fault with
  | expected what => exact what.message_ne e.found
  | _ => exact of_decide_eq_true rfl

namespace Program
open Scriptwright.Parser

theorem ofTokens_eq_error {file : Nat} {tokens : List Token} {e : SyntaxError} :
    ofTokens file tokens = .error e ↔
      ∃ failure, (Parser.declarations nestingLimit).run (Token.body tokens) = .error failure ∧
        e = .ofFailure (Token.finishSpan file tokens) failure := by
  rw [Grammar.ofTokens_eq_run]
  cases (Parser.declarations nestingLimit).run (Token.body tokens) with
  | error e => simp [eq_comm]
  | ok r => simp

/-- A fault lies in one of the closed tokens or in several of those that were read. -/
theorem exists_atToken_of_ofTokens {file : Nat} {tokens : List Token} {e : SyntaxError}
    (h : ofTokens file tokens = .error e) :
    e.fault.isOver ∨ ∃ t ∈ Token.closed file tokens, e = .atToken e.fault t := by
  obtain ⟨failure, hrun, rfl⟩ := ofTokens_eq_error.mp h
  have hsettled := settled_declarations nestingLimit (Token.body tokens)
  obtain ⟨finish, hfinish, hclosed, hspan⟩ := Token.exists_closed_eq file tokens
  cases failure with
  | here fault rest =>
    obtain ⟨read, heq, -⟩ := hsettled.stops (by rw [hrun]; rfl)
    obtain ⟨t, ht, hreport⟩ := SyntaxError.exists_atToken (Token.body_ne_endOfText tokens)
      ⟨read, heq.symm⟩ hfinish fault
    refine .inr ⟨t, ?_, ?_⟩
    · rw [hclosed]
      exact ht
    · rw [hspan, hreport]
      rfl
  | _ fault span => exact .inl (hsettled.isOver hrun)

theorem ofTokens_closed_eq (file : Nat) (tokens : List Token) :
    ofTokens file (Token.closed file tokens) = ofTokens file tokens := by
  obtain ⟨finish, hfinish, hclosed, hspan⟩ := Token.exists_closed_eq file tokens
  have hbody := Token.body_ne_endOfText tokens
  rw [hclosed, Grammar.ofTokens_eq_run, Grammar.ofTokens_eq_run,
    Token.body_append_cons hbody hfinish, Token.finishSpan_append_cons hbody file hfinish, hspan]

end Program

namespace Cursor

/-- The text that a reader stops with; there is none if it has no answer at all. -/
def Halt.message : Halt → Option String
  | report e => some e.message
  | noPrevious _ => some "No previous token"
  | outside _ | endless => none

/-- A cursor reads the program of a parser, and stops only with a report of the parser. -/
theorem program_eq (file : Nat) (tokens : List Token) :
    program file tokens = (Program.ofTokens file tokens).mapError .report := by
  rw [program, whole_eq, Grammar.ofTokens_eq_run]
  dsimp only
  cases (Parser.declarations nestingLimit).run (Token.body tokens) with
  | error e => rfl
  | ok r => rfl

/-- A cursor reads tokens as if they stopped at the first `endOfText`, or had one behind the
last if they have none. It reads what a parser reads, and reports no fault at a place outside
of these tokens. -/
theorem program_closed (file : Nat) (tokens : List Token) :
    program file (Token.closed file tokens) = program file tokens ∧
      program file tokens = (Program.ofTokens file tokens).mapError .report ∧
      ∀ halt, program file tokens = .error halt → halt.message ≠ some "No previous token" ∧
        ∃ e, halt = .report e ∧
          (e.fault.isOver ∨ ∃ t ∈ Token.closed file tokens, e = .atToken e.fault t) := by
  refine ⟨?_, program_eq file tokens, ?_⟩
  · rw [program_eq, program_eq, Program.ofTokens_closed_eq]
  · intro halt hhalt
    rw [program_eq] at hhalt
    cases hread : Program.ofTokens file tokens with
    | ok p =>
      rw [hread] at hhalt
      cases hhalt
    | error e =>
      rw [hread] at hhalt
      cases hhalt
      refine ⟨?_, e, rfl, Program.exists_atToken_of_ofTokens hread⟩
      exact fun hmessage => e.message_ne (Option.some.inj hmessage)

/-- The keyword of a type declaration and its name, at which the tokens break off. -/
def unfinishedType : List Token :=
  [⟨.keyword .typeWord, "type", .none, ⟨0, 0, 4⟩⟩, ⟨.identifier, "A", .none, ⟨0, 5, 6⟩⟩]

theorem program_unfinishedType :
    program 0 (unfinishedType ++ [.finish 0 6]) = program 0 unfinishedType ∧
      ∃ halt, program 0 unfinishedType = .error halt ∧
        halt.message ≠ some "No previous token" ∧ ∃ e, halt = .report e ∧
          (e.fault.isOver ∨ ∃ t ∈ unfinishedType ++ [.finish 0 6], e = .atToken e.fault t) := by
  have hclosed := program_closed 0 unfinishedType
  have hfails : (Program.ofTokens 0 unfinishedType).toOption.isNone := by decide +kernel
  cases hrun : program 0 unfinishedType with
  | error halt => exact ⟨hrun ▸ hclosed.1, halt, rfl, hclosed.2.2 halt hrun⟩
  | ok p =>
    rw [program_eq] at hrun
    cases hread : Program.ofTokens 0 unfinishedType with
    | error e =>
      rw [hread] at hrun
      cases hrun
    | ok q =>
      rw [hread] at hfails
      cases hfails

end Cursor

end Scriptwright
