import Mathlib.Data.List.TakeWhile
import Scriptwright.Parser.Program
import Scriptwright.Proofs.Parser.Run

/-!
# Reading at a cursor

A cursor is a place among tokens that stay where they are. It looks at the token there,
moves on behind it unless the text ends with it, and may look back at the token it has
passed last. A cursor behind all tokens sees a stand-in for the one that ends a text. One
that looks back from the first token, or from a place that is not right behind a token, has
no answer, and neither has a loop that goes round without moving on.

A reader at a cursor agrees with a parser if it stops in front of the same tokens with the
same value, or with the report of the same failure. Each step that a reader is made of
agrees with one that a parser is made of, and so do the ways to put steps together.
-/

namespace Scriptwright

theorem Token.getElem?_length_body (tokens : List Token) :
    tokens[(body tokens).length]? = tokens.find? (·.kind == .endOfText) := by
  unfold body
  induction tokens with
  | nil => rfl
  | cons t rest ih =>
    by_cases h : t.kind = .endOfText
    · simp [h]
    · simpa [h] using ih

namespace Cursor
variable {α β γ δ : Type}

/-- The tokens of a file that a cursor moves through. -/
structure Slice where
  file : Nat
  tokens : List Token

/-- Why a reader has no value. -/
inductive Halt where
  | report (e : SyntaxError)
  /-- The cursor looks back from the first token. -/
  | noPrevious (span : Span)
  /-- The cursor looks back at a place that has no token. -/
  | outside (place : Nat)
  /-- A round of a loop ends no further on than it began. -/
  | endless

/-- A reader of tokens, which starts at one place and stops at another. -/
def Reader (α : Type) : Type := Slice → Nat → Except Halt (α × Nat)

namespace Slice

/-- Stands in for the token that ends the text. -/
def finish (s : Slice) : Token := .finish s.file (Token.lastStop s.tokens)

/-- The token that a cursor at the place `i` sees. -/
def token (s : Slice) (i : Nat) : Token := s.tokens[i]?.getD s.finish

end Slice

instance : Monad Reader where
  pure a := fun _ i => .ok (a, i)
  bind p f := fun s i =>
    match p s i with
    | .error e => .error e
    | .ok (a, j) => f a s j

def peek : Reader Token := fun s i => .ok (s.token i, i)

def isAtEnd : Reader Bool := do return (← peek).kind == .endOfText

/-- Moves on, but stays in front of the end of the text. -/
def advance : Reader Token := do
  let t ← peek
  if ← isAtEnd then return t
  fun _ i => .ok (t, i + 1)

def previous : Reader Token
  | s, 0 => .error (.noPrevious (.point s.file 0))
  | s, i + 1 =>
    match s.tokens[i]? with
    | some t => .ok (t, i + 1)
    | none => .error (.outside i)

def checkAny (kinds : List Kind) : Reader Bool := do
  return !(← isAtEnd) && kinds.contains (← peek).kind

def check (kind : Kind) : Reader Bool := checkAny [kind]

/-- Moves on behind a token of the given kind. -/
def matchKind (kind : Kind) : Reader Bool := do
  if ← check kind then
    let _ ← advance
    return true
  return false

/-- How the token at the cursor is named in a report. -/
def found : Reader String := do
  let t ← peek
  return if t.kind = .endOfText then "end of input" else t.lexeme

/-- Reports a fault over tokens that have been passed. -/
def raise (fault : SyntaxFault) (span : Span) : Reader α :=
  fun _ _ => .error (.report ⟨fault, "", span⟩)

/-- Reports a fault in the token at the cursor. -/
def complain (fault : SyntaxFault) : Reader α := do
  let found ← found
  let t ← peek
  fun _ _ => .error (.report ⟨fault, found, t.span⟩)

def consume (kind : Kind) (what : Expectation) : Reader Token := do
  if ← check kind then advance else complain (.expected what)

/-- Goes round until a round is done. -/
def loop (round : β → Reader (ForInStep β)) (state : β) (s : Slice) (i : Nat) :
    Except Halt (β × Nat) :=
  match round state s i with
  | .error e => .error e
  | .ok (.done state, j) => .ok (state, j)
  | .ok (.yield state, j) =>
    if s.tokens.length - j < s.tokens.length - i then loop round state s j else .error .endless
termination_by s.tokens.length - i

def itemRound (item : Reader α) (items : List α) : Reader (ForInStep (List α)) := do
  let next ← item
  if ← matchKind .comma then return .yield (next :: items)
  return .done (next :: items)

/-- Items with commas between them, none at all in front of a `close`. -/
def commaList (close : Kind) (item : Reader α) : Reader (List α) := do
  if ← check close then return []
  let items ← loop (itemRound item) []
  return items.reverse

namespace Slice

/-- The tokens from the place `i` on, up to the end of the text. -/
def rest (s : Slice) (i : Nat) : List Token := (Token.body s.tokens).drop i

/-- The text does not end before the place `i`. -/
def Inside (s : Slice) (i : Nat) : Prop := i ≤ (Token.body s.tokens).length

/-- Where the end of the text is reported. -/
def finishSpan (s : Slice) : Span := Token.finishSpan s.file s.tokens

/-- The text ends at the place `i`. -/
structure Ended (s : Slice) (i : Nat) : Prop where
  inside : s.Inside i
  rest : s.rest i = []
  kind : (s.token i).kind = .endOfText
  span : (s.token i).span = s.finishSpan

/-- The token `t` stands at the place `i`. -/
structure Next (s : Slice) (i : Nat) (t : Token) : Prop where
  inside : s.Inside i
  inside_succ : s.Inside (i + 1)
  getElem? : s.tokens[i]? = some t
  kind : t.kind ≠ .endOfText
  rest : s.rest i = t :: s.rest (i + 1)

/-- The token `t` stands right before the place `i`. -/
def Behind (s : Slice) (i : Nat) (t : Token) : Prop := ∃ j, i = j + 1 ∧ s.Next j t

variable {s : Slice} {i : Nat} {t : Token}

theorem ended_length (s : Slice) : s.Ended (Token.body s.tokens).length where
  inside := Nat.le_refl _
  rest := List.drop_length
  kind := by
    rw [token, Token.getElem?_length_body]
    cases h : s.tokens.find? (·.kind == .endOfText) with
    | none => rfl
    | some t =>
      have hkind := List.find?_some h
      exact eq_of_beq hkind
  span := by
    rw [token, Token.getElem?_length_body, finishSpan, Token.finishSpan]
    cases s.tokens.find? (·.kind == .endOfText) with
    | none => rfl
    | some t => rfl

theorem next_of_getElem? (h : (Token.body s.tokens)[i]? = some t) : s.Next i t := by
  obtain ⟨hi, hget⟩ := List.getElem?_eq_some_iff.mp h
  have hmem : t ∈ Token.body s.tokens := List.mem_of_getElem? h
  have hprefix : Token.body s.tokens <+: s.tokens := List.takeWhile_prefix _
  exact {
    inside := Nat.le_of_lt hi
    inside_succ := hi
    getElem? := (List.prefix_iff_getElem?.mp hprefix i hi).trans (congrArg some hget)
    kind := by simpa using List.mem_takeWhile_imp hmem
    rest := by rw [rest, List.drop_eq_getElem_cons hi, hget]; rfl }

theorem Inside.cases (h : s.Inside i) : s.Ended i ∨ ∃ t, s.Next i t := by
  rcases Nat.eq_or_lt_of_le h with rfl | hlt
  · exact .inl s.ended_length
  · exact .inr ⟨_, next_of_getElem? (List.getElem?_eq_getElem hlt)⟩

theorem Ended.eq_length (h : s.Ended i) : i = (Token.body s.tokens).length :=
  Nat.le_antisymm h.inside (List.drop_eq_nil_iff.mp h.rest)

theorem Next.token_eq (h : s.Next i t) : s.token i = t := by
  rw [token, h.getElem?]
  rfl

theorem Inside.next_of_head? (h : s.Inside i) (ht : t ∈ (s.rest i).head?) : s.Next i t := by
  rcases h.cases with hend | ⟨u, hu⟩
  · rw [hend.rest] at ht
    cases ht
  · rw [hu.rest] at ht
    cases ht
    exact hu

theorem Next.behind (h : s.Next i t) : s.Behind (i + 1) t := ⟨i, rfl, h⟩

end Slice

section
variable {s : Slice} {i j : Nat} {t : Token}

@[simp] theorem pure_apply (a : α) : (pure a : Reader α) s i = .ok (a, i) := rfl

theorem bind_of_ok {p : Reader α} {a : α} (h : p s i = .ok (a, j)) (f : α → Reader β) :
    (p >>= f) s i = f a s j := by
  simp only [bind, h]

theorem bind_of_error {p : Reader α} {e : Halt} (h : p s i = .error e) (f : α → Reader β) :
    (p >>= f) s i = .error e := by
  simp only [bind, h]

namespace Slice.Ended
variable (h : s.Ended i)
include h

theorem isAtEnd : Cursor.isAtEnd s i = .ok (true, i) := by
  change Except.ok ((s.token i).kind == .endOfText, i) = _
  simp [h.kind]

theorem checkAny (kinds : List Kind) : Cursor.checkAny kinds s i = .ok (false, i) := by
  change Except.ok (!((s.token i).kind == .endOfText) && kinds.contains (s.token i).kind, i) = _
  simp [h.kind]

theorem check (kind : Kind) : Cursor.check kind s i = .ok (false, i) := h.checkAny [kind]

theorem checkAny_else (kinds : List Kind) (p q : Reader α) :
    (do if ← Cursor.checkAny kinds then p else q) s i = q s i := by
  rw [bind_of_ok (h.checkAny kinds), if_neg Bool.false_ne_true]

theorem check_else (kind : Kind) (p q : Reader α) :
    (do if ← Cursor.check kind then p else q) s i = q s i := h.checkAny_else [kind] p q

theorem matchKind (kind : Kind) : Cursor.matchKind kind s i = .ok (false, i) := by
  rw [Cursor.matchKind, bind_of_ok (h.check kind)]
  rfl

theorem matchKind_else (kind : Kind) (p q : Reader α) :
    (do if ← Cursor.matchKind kind then p else q) s i = q s i := by
  rw [bind_of_ok (h.matchKind kind), if_neg Bool.false_ne_true]

theorem complain (fault : SyntaxFault) :
    (Cursor.complain fault : Reader α) s i =
      .error (.report ⟨fault, "end of input", s.finishSpan⟩) := by
  change Except.error (Halt.report ⟨fault,
    if (s.token i).kind = .endOfText then "end of input" else (s.token i).lexeme,
    (s.token i).span⟩) = _
  rw [if_pos h.kind, h.span]

theorem consume (kind : Kind) (what : Expectation) :
    Cursor.consume kind what s i =
      .error (.report ⟨.expected what, "end of input", s.finishSpan⟩) := by
  rw [Cursor.consume, bind_of_ok (h.check kind), if_neg Bool.false_ne_true, h.complain]

end Slice.Ended

namespace Slice.Next
variable (h : s.Next i t)
include h

theorem peek : Cursor.peek s i = .ok (t, i) := by
  rw [Cursor.peek, h.token_eq]

theorem isAtEnd : Cursor.isAtEnd s i = .ok (false, i) := by
  change Except.ok ((s.token i).kind == .endOfText, i) = _
  simp [h.token_eq, h.kind]

theorem advance : Cursor.advance s i = .ok (t, i + 1) := by
  rw [Cursor.advance, bind_of_ok h.peek, bind_of_ok h.isAtEnd]
  rfl

theorem checkAny (kinds : List Kind) :
    Cursor.checkAny kinds s i = .ok (kinds.contains t.kind, i) := by
  change Except.ok (!((s.token i).kind == .endOfText) && kinds.contains (s.token i).kind, i) = _
  simp [h.token_eq, h.kind]

theorem check (kind : Kind) : Cursor.check kind s i = .ok (decide (t.kind = kind), i) := by
  rw [Cursor.check, h.checkAny]
  simp

theorem checkAny_then {kinds : List Kind} (hk : t.kind ∈ kinds) (p q : Reader α) :
    (do if ← Cursor.checkAny kinds then p else q) s i = p s i := by
  rw [bind_of_ok (h.checkAny kinds), if_pos (List.contains_iff_mem.mpr hk)]

theorem checkAny_else {kinds : List Kind} (hk : t.kind ∉ kinds) (p q : Reader α) :
    (do if ← Cursor.checkAny kinds then p else q) s i = q s i := by
  rw [bind_of_ok (h.checkAny kinds), if_neg (mt List.contains_iff_mem.mp hk)]

theorem check_then {kind : Kind} (hk : t.kind = kind) (p q : Reader α) :
    (do if ← Cursor.check kind then p else q) s i = p s i :=
  h.checkAny_then (List.mem_singleton.mpr hk) p q

theorem check_else {kind : Kind} (hk : t.kind ≠ kind) (p q : Reader α) :
    (do if ← Cursor.check kind then p else q) s i = q s i :=
  h.checkAny_else (mt List.mem_singleton.mp hk) p q

theorem matchKind_of_eq {kind : Kind} (hk : t.kind = kind) :
    Cursor.matchKind kind s i = .ok (true, i + 1) := by
  rw [Cursor.matchKind, bind_of_ok (h.check kind), decide_eq_true hk, if_pos rfl,
    bind_of_ok h.advance]
  rfl

theorem matchKind_of_ne {kind : Kind} (hk : t.kind ≠ kind) :
    Cursor.matchKind kind s i = .ok (false, i) := by
  rw [Cursor.matchKind, bind_of_ok (h.check kind), decide_eq_false hk]
  rfl

theorem matchKind_then {kind : Kind} (hk : t.kind = kind) (p q : Reader α) :
    (do if ← Cursor.matchKind kind then p else q) s i = p s (i + 1) := by
  rw [bind_of_ok (h.matchKind_of_eq hk), if_pos rfl]

theorem matchKind_else {kind : Kind} (hk : t.kind ≠ kind) (p q : Reader α) :
    (do if ← Cursor.matchKind kind then p else q) s i = q s i := by
  rw [bind_of_ok (h.matchKind_of_ne hk), if_neg Bool.false_ne_true]

theorem complain (fault : SyntaxFault) :
    (Cursor.complain fault : Reader α) s i = .error (.report ⟨fault, t.lexeme, t.span⟩) := by
  change Except.error (Halt.report ⟨fault,
    if (s.token i).kind = .endOfText then "end of input" else (s.token i).lexeme,
    (s.token i).span⟩) = _
  rw [h.token_eq, if_neg h.kind]

theorem consume_of_eq {kind : Kind} (hk : t.kind = kind) (what : Expectation) :
    Cursor.consume kind what s i = .ok (t, i + 1) := by
  rw [Cursor.consume, bind_of_ok (h.check kind), decide_eq_true hk, if_pos rfl, h.advance]

theorem consume_of_ne {kind : Kind} (hk : t.kind ≠ kind) (what : Expectation) :
    Cursor.consume kind what s i = .error (.report ⟨.expected what, t.lexeme, t.span⟩) := by
  rw [Cursor.consume, bind_of_ok (h.check kind), decide_eq_false hk, if_neg Bool.false_ne_true,
    h.complain]

end Slice.Next

theorem Slice.Inside.matchKind_of_ne (hi : s.Inside i) {kind : Kind}
    (h : ∀ t ∈ (s.rest i).head?, t.kind ≠ kind) : Cursor.matchKind kind s i = .ok (false, i) := by
  rcases hi.cases with hend | ⟨t, ht⟩
  · exact hend.matchKind kind
  · exact ht.matchKind_of_ne (h t (by simp [ht.rest]))

theorem Slice.Behind.previous (h : s.Behind i t) : Cursor.previous s i = .ok (t, i) := by
  obtain ⟨j, rfl, hj⟩ := h
  simp only [Cursor.previous, hj.getElem?]

end

/-- The reader stops where the parser does, with a related value, or reports its failure. -/
inductive Agree (s : Slice) (R : α → β → Prop) :
    Except Halt (α × Nat) → Except Failure (β × List Token) → Prop where
  | ok {a : α} {b : β} {j : Nat} (hab : R a b) (hj : s.Inside j) :
      Agree s R (.ok (a, j)) (.ok (b, s.rest j))
  | error (e : Failure) : Agree s R (.error (.report (.ofFailure s.finishSpan e))) (.error e)

/-- The reader at the place `i` agrees with the parser on the input. -/
def Follows (R : α → β → Prop) (p : Reader α) (q : Parser β) (s : Slice) (i : Nat)
    (input : List Token) : Prop :=
  Agree s R (p s i) (q.run input)

/-- From every place on the reader gives the values of the parser. -/
def Tracks (s : Slice) (p : Reader α) (q : Parser α) : Prop :=
  ∀ i, s.Inside i → Follows (· = ·) p q s i (s.rest i)

section
variable {s : Slice} {i j : Nat} {t : Token} {input : List Token}
variable {R : α → β → Prop} {p : Reader α} {q : Parser β}

theorem follows_pure {a : α} {b : β} (hab : R a b) (hi : s.Inside i) :
    Follows R (pure a) (pure b) s i (s.rest i) := .ok hab hi

theorem follows_complain (fault : SyntaxFault) (hi : s.Inside i) :
    Follows R (complain fault) (Parser.fail fault) s i (s.rest i) := by
  unfold Follows
  rcases hi.cases with hend | ⟨t, ht⟩
  · rw [hend.complain, hend.rest]
    exact .error (.here fault [])
  · rw [ht.complain, ht.rest]
    exact .error (.here fault (t :: s.rest (i + 1)))

/-- The parser has taken the token that it refuses, and the cursor is in front of it. -/
theorem follows_refuse (ht : s.Next i t) (what : Expectation) :
    Follows R (complain (.expected what)) (Parser.refuse t what) s i (s.rest (i + 1)) := by
  unfold Follows
  rw [ht.complain]
  exact .error (.here (.expected what) (t :: s.rest (i + 1)))

theorem follows_raise (fault : SyntaxFault) (span : Span) :
    Follows R (raise fault span) (Parser.failOver fault span) s i input :=
  .error (.over fault span)

/-- The second of two steps starts where the first has stopped. -/
theorem Follows.bind {R' : γ → δ → Prop} {f : α → Reader γ} {g : β → Parser δ}
    (hp : Follows R p q s i input)
    (hf : ∀ a b j, R a b → s.Inside j → p s i = .ok (a, j) →
      Follows R' (f a) (g b) s j (s.rest j)) :
    Follows R' (p >>= f) (q >>= g) s i input := by
  unfold Follows at hp ⊢
  rw [Parser.run_bind]
  generalize hx : p s i = x at hp
  generalize q.run input = y at hp
  cases hp with
  | ok hab hj =>
    rw [bind_of_ok hx]
    exact hf _ _ _ hab hj hx
  | error e =>
    rw [bind_of_error hx]
    exact .error e

theorem Follows.bind_eq {q : Parser α} {R : γ → δ → Prop} {f : α → Reader γ} {g : α → Parser δ}
    (hp : Follows (· = ·) p q s i input)
    (hf : ∀ a j, s.Inside j → p s i = .ok (a, j) → Follows R (f a) (g a) s j (s.rest j)) :
    Follows R (p >>= f) (q >>= g) s i input := by
  refine hp.bind ?_
  rintro a _ j rfl hj hrun
  exact hf a j hj hrun

theorem Tracks.bind {q : Parser α} {R : γ → δ → Prop} {f : α → Reader γ} {g : α → Parser δ}
    (hp : Tracks s p q) (hi : s.Inside i)
    (hf : ∀ a j, s.Inside j → p s i = .ok (a, j) → Follows R (f a) (g a) s j (s.rest j)) :
    Follows R (p >>= f) (q >>= g) s i (s.rest i) := (hp i hi).bind_eq hf

theorem Follows.congr {q' : Parser β} {input' : List Token} (h : Follows R p q s i input)
    (hrun : q'.run input' = q.run input) : Follows R p q' s i input' := by
  unfold Follows
  rw [hrun]
  exact h

/-- The reader has gone on to another place and agrees from there. -/
theorem Follows.of_apply_eq {p' : Reader α} (h : Follows R p' q s j input)
    (hp : p s i = p' s j) : Follows R p q s i input := by
  unfold Follows
  rw [hp]
  exact h

theorem follows_advance {p : Token → Reader α} (ht : s.Next i t)
    (h : Follows R (p t) q s (i + 1) input) : Follows R (advance >>= p) q s i input :=
  h.of_apply_eq (bind_of_ok ht.advance p)

theorem follows_any {q : Token → Parser β} {what : Expectation} (ht : s.Next i t)
    (h : Follows R p (q t) s i (s.rest (i + 1))) :
    Follows R p (Parser.any what >>= q) s i (s.rest i) := by
  unfold Follows
  rw [ht.rest, Parser.run_bind_of_ok (Parser.run_any_cons what t _)]
  exact h

theorem follows_any_of_ended {q : Token → Parser β} {what : Expectation} (hend : s.Ended i)
    (hp : p s i = .error (.report ⟨.expected what, "end of input", s.finishSpan⟩)) :
    Follows R p (Parser.any what >>= q) s i (s.rest i) := by
  unfold Follows
  rw [hp, hend.rest]
  exact .error (.here (.expected what) [])

theorem tracks_check (kind : Kind) : Tracks s (check kind) (Parser.nextIs kind) := by
  intro i hi
  unfold Follows
  rw [Parser.run_nextIs]
  rcases hi.cases with hend | ⟨t, ht⟩
  · rw [hend.check]
    refine .ok ?_ hi
    rw [hend.rest]
    rfl
  · rw [ht.check]
    refine .ok ?_ hi
    rw [ht.rest]
    rfl

theorem tracks_matchKind (kind : Kind) : Tracks s (matchKind kind) (Parser.accept kind) := by
  intro i hi
  unfold Follows
  rcases hi.cases with hend | ⟨t, ht⟩
  · rw [hend.matchKind, Parser.run_accept_of_ne (by simp [hend.rest])]
    exact .ok rfl hi
  · by_cases hk : t.kind = kind
    · rw [ht.matchKind_of_eq hk, ht.rest, Parser.run_accept_of_kind hk]
      exact .ok rfl ht.inside_succ
    · rw [ht.matchKind_of_ne hk, Parser.run_accept_of_ne (by simpa [ht.rest] using hk)]
      exact .ok rfl hi

theorem tracks_consume (kind : Kind) (what : Expectation) :
    Tracks s (consume kind what) (Parser.take kind what) := by
  intro i hi
  unfold Follows
  rcases hi.cases with hend | ⟨t, ht⟩
  · rw [hend.consume, hend.rest]
    exact .error (.here (.expected what) [])
  · by_cases hk : t.kind = kind
    · rw [ht.consume_of_eq hk, ht.rest, Parser.run_take_of_kind hk]
      exact .ok rfl ht.inside_succ
    · rw [ht.consume_of_ne hk, ht.rest, Parser.run_take_cons, if_neg hk]
      exact .error (.here (.expected what) (t :: s.rest (i + 1)))

theorem behind_of_consume {kind : Kind} {what : Expectation} (hi : s.Inside i)
    (h : consume kind what s i = .ok (t, j)) : s.Behind j t := by
  rcases hi.cases with hend | ⟨u, hu⟩
  · rw [hend.consume] at h
    cases h
  · by_cases hk : u.kind = kind
    · rw [hu.consume_of_eq hk] at h
      cases h
      exact hu.behind
    · rw [hu.consume_of_ne hk] at h
      cases h

theorem Slice.Inside.lt_sub (hj : s.Inside j) (hij : i < j) :
    s.tokens.length - j < s.tokens.length - i := by
  have hbody : (Token.body s.tokens).length ≤ s.tokens.length :=
    (List.takeWhile_prefix _).length_le
  have hle : j ≤ s.tokens.length := Nat.le_trans hj hbody
  omega

/-- The cursor has moved on if fewer tokens are left. -/
theorem Slice.Inside.le_of_suffix (hj : s.Inside j) (hi : s.Inside i)
    (h : s.rest j <:+ s.rest i) : i ≤ j := by
  have hlength := h.length_le
  simp only [Slice.rest, List.length_drop] at hlength
  simp only [Slice.Inside] at hi hj
  omega

theorem Slice.Inside.length_rest_lt (hj : s.Inside j) (hij : i < j) :
    (s.rest j).length < (s.rest i).length := by
  simp only [Slice.rest, List.length_drop]
  simp only [Slice.Inside] at hj
  omega

end

section
variable {s : Slice} {i j : Nat} {round : β → Reader (ForInStep β)} {state next : β}

theorem loop_of_error {e : Halt} (h : round state s i = .error e) :
    loop round state s i = .error e := by
  rw [loop, h]

theorem loop_of_done (h : round state s i = .ok (.done next, j)) :
    loop round state s i = .ok (next, j) := by
  rw [loop, h]

theorem loop_of_yield (h : round state s i = .ok (.yield next, j)) (hij : i < j)
    (hj : s.Inside j) : loop round state s i = loop round next s j := by
  rw [loop, h]
  exact if_pos (hj.lt_sub hij)

/-- A loop ends with a round that is done. -/
theorem exists_done_of_loop (h : loop round state s i = .ok (next, j)) :
    ∃ last k, round last s k = .ok (.done next, j) := by
  fun_induction loop round state s i with
  | case1 => cases h
  | case2 state i last k hround =>
    cases h
    exact ⟨state, i, hround⟩
  | case3 _ _ _ _ _ _ ih => exact ih h
  | case4 => cases h

end

/-- Only the value changes. -/
theorem Follows.map {s : Slice} {i : Nat} {input : List Token} {R : α → β → Prop}
    {R' : γ → β → Prop} {p : Reader α} {q : Parser β} {f : α → γ}
    (hp : Follows R p q s i input) (hf : ∀ a b, R a b → R' (f a) b) :
    Follows R' (do return f (← p)) q s i input := by
  unfold Follows at hp ⊢
  generalize hx : p s i = x at hp
  generalize q.run input = y at hp
  cases hp with
  | ok hab hj =>
    rw [bind_of_ok hx]
    exact .ok (hf _ _ hab) hj
  | error e =>
    rw [bind_of_error hx]
    exact .error e

/-- What comes behind a loop comes behind its last step. -/
theorem run_extend_bind {select : Token → Option γ} {t : Token} {c : γ} (h : select t = some c)
    (step : β → γ → Parser β) (state : β) (last : β → Parser β) (rest : List Token) :
    Parser.run (Parser.extend select step state >>= last) (t :: rest) =
      match (step state c).run rest with
      | .error e => .error e
      | .ok r => Parser.run (Parser.extend select step r.1 >>= last) r.2 := by
  refine (Parser.run_bind _ last (t :: rest)).trans ?_
  rw [Parser.run_extend_of_some h]
  cases (step state c).run rest with
  | error e => rfl
  | ok r => exact (Parser.run_bind _ last r.2).symm

theorem run_bind_pure (p : Parser α) (input : List Token) :
    (p >>= pure).run input = p.run input := by
  rw [Parser.run_bind]
  cases p.run input with
  | error e => rfl
  | ok r => rfl

theorem run_bind_assoc (p : Parser α) (f : α → Parser β) (g : β → Parser γ)
    (input : List Token) : ((p >>= f) >>= g).run input = (p >>= fun a => f a >>= g).run input := by
  rw [Parser.run_bind, Parser.run_bind, Parser.run_bind]
  cases p.run input with
  | error e => rfl
  | ok r => exact (Parser.run_bind _ _ _).symm

section
variable {s : Slice}

/-- A loop agrees with one of a parser if a round after a selected token makes the same step,
and a round in front of another token is the last one. What comes `last` may fail where the
text ends. -/
theorem follows_loop {R : α → β → Prop} {round : α → Reader (ForInStep α)}
    {select : Token → Option γ} {step : β → γ → Parser β} {last : β → Parser β}
    (hstop : ∀ a b i, R a b → s.Inside i → (∀ t ∈ (s.rest i).head?, select t = none) →
      Follows (fun x b => ∃ a, x = .done a ∧ R a b) (round a) (last b) s i (s.rest i))
    (hstep : ∀ a b i t c, R a b → s.Next i t → select t = some c →
      Follows (fun x b => ∃ a, x = .yield a ∧ R a b) (round a) (step b c) s i (s.rest (i + 1)))
    {a : α} {b : β} (hab : R a b) {i : Nat} (hi : s.Inside i) :
    Follows R (loop round a) (Parser.extend select step b >>= last) s i (s.rest i) := by
  -- The number of tokens from the cursor on gets smaller with each round.
  induction hn : (s.rest i).length using Nat.strong_induction_on generalizing a b i with
  | _ n ih =>
    by_cases hnone : ∀ t ∈ (s.rest i).head?, select t = none
    · have hround := hstop a b i hab hi hnone
      unfold Follows at hround ⊢
      rw [Parser.run_bind_of_ok (Parser.run_extend_of_none hnone step b)]
      generalize hx : round a s i = x at hround
      generalize (last b).run (s.rest i) = y at hround
      cases hround with
      | ok hab' hj =>
        obtain ⟨a', rfl, hab'⟩ := hab'
        rw [loop_of_done hx]
        exact .ok hab' hj
      | error e =>
        rw [loop_of_error hx]
        exact .error e
    · rcases hi.cases with hend | ⟨t, ht⟩
      · exact absurd (by simp [hend.rest]) hnone
      cases hc : select t with
      | none => exact absurd (by simpa [ht.rest] using hc) hnone
      | some c =>
        have hround := hstep a b i t c hab ht hc
        unfold Follows at hround ⊢
        rw [ht.rest, run_extend_bind hc]
        generalize hx : round a s i = x at hround
        generalize hy : (step b c).run (s.rest (i + 1)) = y at hround
        cases hround with
        | ok hab' hj =>
          obtain ⟨a', rfl, hab'⟩ := hab'
          have hlt := hj.le_of_suffix ht.inside_succ (Parser.run_suffix hy)
          rw [loop_of_yield hx hlt hj]
          exact ih _ (hn ▸ hj.length_rest_lt hlt) hab' hj rfl
        | error e =>
          rw [loop_of_error hx]
          exact .error e

theorem follows_loop_pure {R : α → β → Prop} {round : α → Reader (ForInStep α)}
    {select : Token → Option γ} {step : β → γ → Parser β}
    (hstop : ∀ a i, s.Inside i → (∀ t ∈ (s.rest i).head?, select t = none) →
      round a s i = .ok (.done a, i))
    (hstep : ∀ a b i t c, R a b → s.Next i t → select t = some c →
      Follows (fun x b => ∃ a, x = .yield a ∧ R a b) (round a) (step b c) s i (s.rest (i + 1)))
    {a : α} {b : β} (hab : R a b) {i : Nat} (hi : s.Inside i) :
    Follows R (loop round a) (Parser.extend select step b) s i (s.rest i) := by
  have hlast : ∀ a b i, R a b → s.Inside i → (∀ t ∈ (s.rest i).head?, select t = none) →
      Follows (fun x b => ∃ a, x = .done a ∧ R a b) (round a) (pure b) s i (s.rest i) := by
    intro a b i hab hi hnone
    unfold Follows
    rw [hstop a i hi hnone]
    exact .ok ⟨a, rfl, hab⟩ hi
  have hloop : Follows R (loop round a) (Parser.extend select step b >>= pure) s i (s.rest i) :=
    follows_loop hlast hstep hab hi
  exact hloop.congr (run_bind_pure _ _).symm

/-- The items behind the commas that come next. -/
def moreItems (item : Parser α) (items : List α) : Parser (List α) :=
  Parser.extend Parser.comma? (fun items _ => do return (← item) :: items) items

/-- An item and those behind the commas that come next. -/
def itemsFrom (item : Parser α) (items : List α) : Parser (List α) := do
  moreItems item ((← item) :: items)

theorem run_moreItems_of_comma (item : Parser α) (items : List α) {t : Token}
    (ht : t.kind = .comma) (rest : List Token) :
    (moreItems item items).run (t :: rest) = (itemsFrom item items).run rest := by
  have hcomma : Parser.comma? t = some () := if_pos ht
  rw [moreItems, Parser.run_extend_of_some hcomma, itemsFrom, Parser.run_bind, Parser.run_bind]
  cases item.run rest with
  | error e => rfl
  | ok r => rfl

theorem run_moreItems_of_ne (item : Parser α) (items : List α) {input : List Token}
    (h : ∀ t ∈ input.head?, t.kind ≠ .comma) :
    (moreItems item items).run input = .ok (items, input) :=
  Parser.run_extend_of_none (fun t ht => if_neg (h t ht)) _ items

/-- A round takes an item and then a comma, and the parser takes a comma and then an item. -/
theorem tracks_loop_items {item : Reader α} {item' : Parser α} (hitem : Tracks s item item')
    (items : List α) : Tracks s (loop (itemRound item) items) (itemsFrom item' items) := by
  intro i hi
  -- Each comma brings the cursor closer to the end.
  induction hn : (s.rest i).length using Nat.strong_induction_on generalizing items i with
  | _ n ih =>
    have hfirst := hitem i hi
    unfold Follows at hfirst ⊢
    rw [itemsFrom, Parser.run_bind]
    generalize hx : item s i = x at hfirst
    generalize hy : item'.run (s.rest i) = y at hfirst
    cases hfirst with
    | error e =>
      rw [loop_of_error (bind_of_error hx _)]
      exact .error e
    | @ok a b j hab hj =>
      cases hab
      have hround : itemRound item items s i = _ := bind_of_ok hx _
      have hlt : i < j + 1 := Nat.lt_succ_of_le (hj.le_of_suffix hi (Parser.run_suffix hy))
      by_cases hcomma : ∃ t, s.Next j t ∧ t.kind = .comma
      · obtain ⟨t, ht, hk⟩ := hcomma
        rw [bind_of_ok (ht.matchKind_of_eq hk)] at hround
        rw [loop_of_yield hround hlt ht.inside_succ, ht.rest]
        dsimp only
        rw [run_moreItems_of_comma item' (a :: items) hk]
        exact ih _ (hn ▸ ht.inside_succ.length_rest_lt hlt) (a :: items) (j + 1) ht.inside_succ rfl
      · have hne : ∀ t ∈ (s.rest j).head?, t.kind ≠ .comma :=
          fun t ht hk => hcomma ⟨t, hj.next_of_head? ht, hk⟩
        rw [bind_of_ok (hj.matchKind_of_ne hne)] at hround
        rw [loop_of_done hround]
        dsimp only
        rw [run_moreItems_of_ne item' (a :: items) hne]
        exact .ok rfl hj

theorem tracks_commaList {item : Reader α} {item' : Parser α} (hitem : Tracks s item item')
    (close : Kind) : Tracks s (commaList close item) (Parser.commaList close item') := by
  intro i hi
  refine (tracks_check close).bind hi ?_
  rintro (_ | _) j hj -
  · refine ((tracks_loop_items hitem []).bind hj fun items k hk _ => follows_pure rfl hk).congr ?_
    exact (run_bind_assoc item' _ _ _).symm
  · exact follows_pure rfl hj

end

end Cursor

end Scriptwright
