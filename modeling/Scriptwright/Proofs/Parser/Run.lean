import Mathlib.Tactic.SplitIfs
import Scriptwright.Parser

/-!
# Runs of parsers

The result of a parser mentions its input in its type. A run forgets the evidence
that the rest is an end of the input and keeps the value and the rest, so that
runs on different inputs can be compared. Each way to build a parser has one law
that says how it runs. Later modules use these laws and never unfold a parser's
own steps.
-/

namespace Scriptwright.Parser
variable {α β γ : Type}

/-- What a parser reads from the input and what it leaves. -/
def run (p : Parser α) (input : List Token) : Except Failure (α × List Token) :=
  match p input with
  | .error e => .error e
  | .ok r => .ok (r.value, r.rest)

theorem run_suffix {p : Parser α} {input rest : List Token} {a : α}
    (h : p.run input = .ok (a, rest)) : rest <:+ input := by
  unfold run at h
  split at h
  · cases h
  · next r _ =>
    cases h
    exact r.suffix

@[simp] theorem run_pure (a : α) (input : List Token) :
    (pure a : Parser α).run input = .ok (a, input) := rfl

/-- One parser after another: the second starts where the first stops. -/
theorem run_bind (p : Parser α) (f : α → Parser β) (input : List Token) :
    (p >>= f).run input =
      match p.run input with
      | .error e => .error e
      | .ok r => (f r.1).run r.2 := by
  unfold run
  change (match Parser.bind p f input with
    | Except.error e => Except.error e
    | .ok r => .ok (r.value, r.rest)) = _
  unfold Parser.bind
  cases p input with
  | error e => rfl
  | ok r =>
    dsimp only
    cases f r.value r.rest with
    | error e => rfl
    | ok s => rfl

theorem run_bind_of_ok {p : Parser α} {f : α → Parser β} {input rest : List Token} {a : α}
    (h : p.run input = .ok (a, rest)) : (p >>= f).run input = (f a).run rest := by
  rw [run_bind, h]

theorem run_bind_of_error {p : Parser α} {f : α → Parser β} {input : List Token}
    {failure : Failure} (h : p.run input = .error failure) :
    (p >>= f).run input = .error failure := by
  rw [run_bind, h]

/-- A sequence succeeds exactly when both parts do, one after the other. -/
theorem run_bind_eq_ok {p : Parser α} {f : α → Parser β} {input rest : List Token} {b : β} :
    (p >>= f).run input = .ok (b, rest) ↔
      ∃ a middle, p.run input = .ok (a, middle) ∧ (f a).run middle = .ok (b, rest) := by
  constructor
  · intro h
    rw [run_bind] at h
    cases hp : p.run input with
    | error e => rw [hp] at h; cases h
    | ok r =>
      rw [hp] at h
      exact ⟨r.1, r.2, rfl, h⟩
  · rintro ⟨a, middle, hp, hf⟩
    rw [run_bind_of_ok hp, hf]

@[simp] theorem run_fail (fault : SyntaxFault) (input : List Token) :
    (fail fault : Parser α).run input = .error (.here fault input) := rfl

@[simp] theorem run_failOver (fault : SyntaxFault) (span : Span) (input : List Token) :
    (failOver fault span : Parser α).run input = .error (.over fault span) := rfl

@[simp] theorem run_refuse (t : Token) (what : Expectation) (input : List Token) :
    (refuse t what : Parser α).run input = .error (.here (.expected what) (t :: input)) := rfl

@[simp] theorem run_any_nil (what : Expectation) :
    (any what).run [] = .error (.here (.expected what) []) := rfl

@[simp] theorem run_any_cons (what : Expectation) (t : Token) (rest : List Token) :
    (any what).run (t :: rest) = .ok (t, rest) := rfl

theorem run_any_eq_ok {what : Expectation} {input rest : List Token} {t : Token} :
    (any what).run input = .ok (t, rest) ↔ input = t :: rest := by
  cases input with
  | nil => simp
  | cons u rest' => simp

@[simp] theorem run_take_nil (kind : Kind) (what : Expectation) :
    (take kind what).run [] = .error (.here (.expected what) []) := rfl

theorem run_take_cons (kind : Kind) (what : Expectation) (t : Token) (rest : List Token) :
    (take kind what).run (t :: rest) =
      if t.kind = kind then .ok (t, rest) else .error (.here (.expected what) (t :: rest)) := by
  by_cases h : t.kind = kind <;> simp [run, take, h]

theorem run_take_of_kind {kind : Kind} {t : Token} (h : t.kind = kind) (what : Expectation)
    (rest : List Token) : (take kind what).run (t :: rest) = .ok (t, rest) := by
  rw [run_take_cons, if_pos h]

theorem run_take_eq_ok {kind : Kind} {what : Expectation} {input rest : List Token} {t : Token} :
    (take kind what).run input = .ok (t, rest) ↔ input = t :: rest ∧ t.kind = kind := by
  cases input with
  | nil => simp
  | cons u rest' =>
    rw [run_take_cons]
    split_ifs with h
    · simp only [Except.ok.injEq, Prod.mk.injEq, List.cons.injEq]
      constructor
      · rintro ⟨rfl, rfl⟩
        exact ⟨⟨rfl, rfl⟩, h⟩
      · exact fun hu => hu.1
    · simp only [List.cons.injEq, false_iff, not_and, and_imp]
      rintro rfl _
      exact h

@[simp] theorem run_nextIs (kind : Kind) (input : List Token) :
    (nextIs kind).run input = .ok (input.head?.any (·.kind = kind), input) := rfl

@[simp] theorem run_accept_nil (kind : Kind) : (accept kind).run [] = .ok (false, []) := rfl

theorem run_accept_cons (kind : Kind) (t : Token) (rest : List Token) :
    (accept kind).run (t :: rest) =
      if t.kind = kind then .ok (true, rest) else .ok (false, t :: rest) := by
  by_cases h : t.kind = kind <;> simp [run, accept, h]

theorem run_accept_of_kind {kind : Kind} {t : Token} (h : t.kind = kind) (rest : List Token) :
    (accept kind).run (t :: rest) = .ok (true, rest) := by
  rw [run_accept_cons, if_pos h]

/-- Nothing is taken where another kind of token, or none at all, follows. -/
theorem run_accept_of_ne {kind : Kind} {input : List Token}
    (h : ∀ t ∈ input.head?, t.kind ≠ kind) : (accept kind).run input = .ok (false, input) := by
  cases input with
  | nil => rfl
  | cons t rest =>
    have ht : t.kind ≠ kind := h t rfl
    rw [run_accept_cons, if_neg ht]

theorem run_accept_eq_ok {kind : Kind} {input rest : List Token} {b : Bool} :
    (accept kind).run input = .ok (b, rest) ↔
      (b = true ∧ ∃ t, t.kind = kind ∧ input = t :: rest) ∨
        (b = false ∧ rest = input ∧ ∀ t ∈ input.head?, t.kind ≠ kind) := by
  cases input with
  | nil => cases b <;> simp [eq_comm]
  | cons u rest' =>
    rw [run_accept_cons]
    split_ifs with h <;> cases b <;> grind

/-- A loop stops at a token that it does not select. -/
theorem run_extend_of_none {select : Token → Option γ} {input : List Token}
    (h : ∀ t ∈ input.head?, select t = none) (step : β → γ → Parser β) (state : β) :
    run (extend select step state) input = .ok (state, input) := by
  unfold run
  cases input with
  | nil => rw [extend]
  | cons t rest =>
    have ht : select t = none := h t rfl
    rw [extend]
    simp only [ht]

/-- A loop that selects a token makes a step after it and goes on from there. -/
theorem run_extend_of_some {select : Token → Option γ} {t : Token} {c : γ} (h : select t = some c)
    (step : β → γ → Parser β) (state : β) (rest : List Token) :
    run (extend select step state) (t :: rest) =
      match (step state c).run rest with
      | .error e => .error e
      | .ok r => run (extend select step r.1) r.2 := by
  unfold run
  rw [extend]
  simp only [h]
  cases step state c rest with
  | error e => rfl
  | ok r =>
    dsimp only
    cases extend select step r.value r.rest with
    | error e => rfl
    | ok s => rfl

end Scriptwright.Parser
