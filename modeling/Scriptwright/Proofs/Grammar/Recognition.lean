import Mathlib.Data.Nat.Init
import Scriptwright.Proofs.Grammar
import Scriptwright.Proofs.Parser.Run

/-!
# Parsers that recognize a phrase

A parser recognizes a kind of derivation tree if each of its successful runs comes
from a tree, and if it reads every tree back. Parsers are greedy, so a tree is read
back only where the token behind it cannot go on with it. Which kinds of token
would do that is part of the statement.

The lemmas here say how recognition passes to loops and to lists with commas. They
are the only place where a loop of a parser is opened.
-/

namespace Scriptwright.Grammar
open Scriptwright.Parser

/-- No token at the front of `rest` is of a kind that goes on with what is before it. -/
def Ends (continues : Kind → Bool) (rest : List Token) : Prop :=
  ∀ t ∈ rest.head?, continues t.kind = false

@[simp] theorem ends_nil (continues : Kind → Bool) : Ends continues [] := by
  intro t ht
  cases ht

@[simp] theorem ends_cons {continues : Kind → Bool} {t : Token} {rest : List Token} :
    Ends continues (t :: rest) ↔ continues t.kind = false := by
  simp [Ends]

theorem Ends.mono {continues fewer : Kind → Bool} {rest : List Token} (h : Ends continues rest)
    (hk : ∀ k, continues k = false → fewer k = false) : Ends fewer rest :=
  fun t ht => hk t.kind (h t ht)

/-- Every tree has a first token, and it is of one of the given kinds. -/
def Begins {δ : Type} (tokens : δ → List Token) (starts : Kind → Bool) : Prop :=
  ∀ d, ∃ t ts, tokens d = t :: ts ∧ starts t.kind = true

/-- What follows a tree that has just ended may begin another tree. -/
theorem Begins.ends {δ : Type} {tokens : δ → List Token} {starts continues : Kind → Bool}
    (h : Begins tokens starts) (hk : ∀ k, starts k = true → continues k = false)
    (d : δ) (rest : List Token) : Ends continues (tokens d ++ rest) := by
  obtain ⟨t, ts, ht, hs⟩ := h d
  rw [ht, List.cons_append, ends_cons]
  exact hk _ hs

theorem ends_flatMap {δ : Type} {tokens : δ → List Token} {continues : Kind → Bool}
    (hnext : ∀ (d : δ) (rest : List Token), Ends continues (tokens d ++ rest)) (ds : List δ)
    {rest : List Token} (hends : Ends continues rest) :
    Ends continues (ds.flatMap tokens ++ rest) := by
  cases ds with
  | nil => exact hends
  | cons d ds =>
    rw [List.flatMap_cons, List.append_assoc]
    exact hnext d _

/-- The parser reads exactly the given trees. -/
structure Reads {α δ : Type} (p : Parser α) (tokens : δ → List Token) (value : δ → α)
    (continues : Kind → Bool) : Prop where
  /-- What the parser has read is a tree. -/
  sound {input rest : List Token} {a : α} (h : p.run input = .ok (a, rest)) :
    ∃ d, input = tokens d ++ rest ∧ a = value d
  /-- A tree that ends where it stands is read as a whole. -/
  complete (d : δ) {rest : List Token} (h : Ends continues rest) :
    p.run (tokens d ++ rest) = .ok (value d, rest)

/-- A parser that reads a phrase. -/
abbrev ReadsPhrase {α : Type} (p : Parser α) (P : Phrase α) (continues : Kind → Bool) : Prop :=
  Reads p P.tokens P.value continues

section Terminals
variable {α : Type} {kind : Kind} {what : Expectation}

theorem run_take_bind (t : Terminal kind) (f : Token → Parser α) (rest : List Token) :
    (take kind what >>= f).run (t.val :: rest) = (f t.val).run rest :=
  run_bind_of_ok (run_take_of_kind t.property what rest)

theorem run_any_bind (t : Token) (f : Token → Parser α) (rest : List Token) :
    (any what >>= f).run (t :: rest) = (f t).run rest :=
  run_bind_of_ok (run_any_cons what t rest)

end Terminals

section Loops
variable {β γ δ : Type} {select : Token → Option γ} {step : β → γ → Parser β}
variable (tokens : δ → List Token) (apply : β → δ → β) (Valid : β → Prop)

/-- A loop whose steps come from trees comes from a list of trees. -/
theorem run_extend_sound
    (hstep : ∀ {s s' : β} {t : Token} {c : γ} {input rest : List Token}, Valid s →
      select t = some c → (step s c).run input = .ok (s', rest) →
        ∃ d, t :: input = tokens d ++ rest ∧ s' = apply s d ∧ Valid s')
    {s s' : β} {input rest : List Token} (hs : Valid s)
    (h : run (extend select step s) input = .ok (s', rest)) :
    ∃ ds : List δ, input = ds.flatMap tokens ++ rest ∧ s' = ds.foldl apply s ∧
      ∀ t ∈ rest.head?, select t = none := by
  induction hn : input.length using Nat.strong_induction_on generalizing s input with
  | h n ih =>
    by_cases hstop : ∀ t ∈ input.head?, select t = none
    · rw [run_extend_of_none hstop] at h
      cases h
      exact ⟨[], rfl, rfl, hstop⟩
    · cases input with
      | nil => exact absurd nofun hstop
      | cons t input =>
        obtain ⟨c, hc⟩ : ∃ c, select t = some c := by
          rw [← Option.ne_none_iff_exists']
          rintro hc
          exact hstop (by rintro u ⟨⟩; exact hc)
        rw [run_extend_of_some hc] at h
        cases hr : (step s c).run input with
        | error e => rw [hr] at h; cases h
        | ok r =>
          rw [hr] at h
          obtain ⟨d, hd, hv, hvalid⟩ := hstep hs hc hr
          have hlen := (run_suffix hr).length_le
          have hlt : r.2.length < n := by
            rw [← hn, List.length_cons]
            omega
          obtain ⟨ds, hds, hfold, hend⟩ := ih r.2.length hlt hvalid h rfl
          refine ⟨d :: ds, ?_, ?_, hend⟩
          · rw [hd, hds, List.flatMap_cons, List.append_assoc]
          · rw [hfold, hv, List.foldl_cons]

/-- A loop reads a list of trees up to a token that it does not select. -/
theorem run_extend_complete (continues : Kind → Bool)
    (hstep : ∀ (s : β) (d : δ) {rest : List Token}, Valid s → Ends continues rest →
      ∃ t ts c, tokens d = t :: ts ∧ select t = some c ∧
        (step s c).run (ts ++ rest) = .ok (apply s d, rest) ∧ Valid (apply s d))
    (hnext : ∀ (d : δ) (rest : List Token), Ends continues (tokens d ++ rest))
    (ds : List δ) {s : β} (hs : Valid s) {rest : List Token} (hends : Ends continues rest)
    (hstop : ∀ t ∈ rest.head?, select t = none) :
    run (extend select step s) (ds.flatMap tokens ++ rest) = .ok (ds.foldl apply s, rest) := by
  induction ds generalizing s with
  | nil => exact run_extend_of_none hstop step s
  | cons d ds ih =>
    obtain ⟨t, ts, c, ht, hc, hrun, hvalid⟩ := hstep s d hs (ends_flatMap hnext ds hends)
    rw [List.flatMap_cons, List.append_assoc, ht, List.cons_append, run_extend_of_some hc, hrun]
    exact ih hvalid

end Loops

section Collecting
variable {α γ δ : Type} {select : Token → Option γ} {p : γ → Parser α}
variable {tokens : δ → List Token} {value : δ → α}

/-- The step of a loop that puts what it reads in front of what it has. -/
def collect (p : γ → Parser α) (values : List α) (c : γ) : Parser (List α) :=
  p c >>= fun a => pure (a :: values)

theorem run_collect_eq_ok {values values' : List α} {c : γ} {input rest : List Token} :
    (collect p values c).run input = .ok (values', rest) ↔
      ∃ a, (p c).run input = .ok (a, rest) ∧ values' = a :: values := by
  unfold collect
  rw [run_bind_eq_ok]
  constructor
  · rintro ⟨a, middle, ha, hb⟩
    cases hb
    exact ⟨a, ha, rfl⟩
  · rintro ⟨a, ha, rfl⟩
    exact ⟨a, rest, ha, rfl⟩

theorem foldl_cons_value (ds : List δ) (start : List α) :
    ds.foldl (fun values d => value d :: values) start = (ds.map value).reverse ++ start := by
  induction ds generalizing start with
  | nil => rfl
  | cons d ds ih => simp [ih]

theorem run_collecting_sound
    (h : ∀ {t : Token} {c : γ} {input rest : List Token} {a : α}, select t = some c →
      (p c).run input = .ok (a, rest) → ∃ d, t :: input = tokens d ++ rest ∧ a = value d)
    {start values : List α} {input rest : List Token}
    (hrun : run (extend select (collect p) start) input = .ok (values, rest)) :
    ∃ ds : List δ, input = ds.flatMap tokens ++ rest ∧
      values = (ds.map value).reverse ++ start ∧ ∀ t ∈ rest.head?, select t = none := by
  have hstep : ∀ {s s' : List α} {t : Token} {c : γ} {input rest : List Token}, True →
      select t = some c → (collect p s c).run input = .ok (s', rest) →
        ∃ d, t :: input = tokens d ++ rest ∧ s' = value d :: s ∧ True := by
    intro s s' t c input rest _ hc hs
    obtain ⟨a, ha, rfl⟩ := run_collect_eq_ok.mp hs
    obtain ⟨d, hd, rfl⟩ := h hc ha
    exact ⟨d, hd, rfl, trivial⟩
  obtain ⟨ds, hds, hfold, hend⟩ := run_extend_sound tokens (fun values d => value d :: values)
    (fun _ => True) hstep trivial hrun
  exact ⟨ds, hds, hfold.trans (foldl_cons_value ds start), hend⟩

theorem run_collecting_complete (continues : Kind → Bool)
    (h : ∀ (d : δ) {rest : List Token}, Ends continues rest → ∃ t ts c, tokens d = t :: ts ∧
      select t = some c ∧ (p c).run (ts ++ rest) = .ok (value d, rest))
    (hnext : ∀ (d : δ) (rest : List Token), Ends continues (tokens d ++ rest))
    (ds : List δ) (start : List α) {rest : List Token} (hends : Ends continues rest)
    (hstop : ∀ t ∈ rest.head?, select t = none) :
    run (extend select (collect p) start) (ds.flatMap tokens ++ rest) =
      .ok ((ds.map value).reverse ++ start, rest) := by
  have hstep : ∀ (s : List α) (d : δ) {rest : List Token}, True → Ends continues rest →
      ∃ t ts c, tokens d = t :: ts ∧ select t = some c ∧
        (collect p s c).run (ts ++ rest) = .ok (value d :: s, rest) ∧ True := by
    intro s d rest _ hends
    obtain ⟨t, ts, c, ht, hc, hrun⟩ := h d hends
    exact ⟨t, ts, c, ht, hc, run_collect_eq_ok.mpr ⟨value d, hrun, rfl⟩, trivial⟩
  rw [run_extend_complete tokens (fun values d => value d :: values) (fun _ => True) continues
    hstep hnext ds trivial hends hstop, foldl_cons_value]

/-- The loop fails where its step does, behind the trees that it has read. -/
theorem run_collecting_of_error (continues : Kind → Bool)
    (h : ∀ (d : δ) {rest : List Token}, Ends continues rest → ∃ t ts c, tokens d = t :: ts ∧
      select t = some c ∧ (p c).run (ts ++ rest) = .ok (value d, rest))
    (hnext : ∀ (d : δ) (rest : List Token), Ends continues (tokens d ++ rest))
    (ds : List δ) (start : List α) {t : Token} {c : γ} {input : List Token} {failure : Failure}
    (hends : continues t.kind = false) (hc : select t = some c)
    (hfail : (p c).run input = .error failure) :
    run (extend select (collect p) start) (ds.flatMap tokens ++ t :: input) = .error failure := by
  induction ds generalizing start with
  | nil =>
    have hstep : (collect p start c).run input = .error failure := run_bind_of_error hfail
    rw [List.flatMap_nil, List.nil_append, run_extend_of_some hc, hstep]
  | cons d ds ih =>
    have hrest : Ends continues (ds.flatMap tokens ++ t :: input) :=
      ends_flatMap hnext ds (ends_cons.mpr hends)
    obtain ⟨u, us, e, hu, he, hrun⟩ := h d hrest
    have hstep : (collect p start e).run (us ++ (ds.flatMap tokens ++ t :: input)) =
        .ok (value d :: start, ds.flatMap tokens ++ t :: input) :=
      run_collect_eq_ok.mpr ⟨value d, hrun, rfl⟩
    rw [List.flatMap_cons, List.append_assoc, hu, List.cons_append, run_extend_of_some he, hstep]
    exact ih (value d :: start)

end Collecting

section CommaLists
variable {α δ : Type} {item : Parser α} {tokens : δ → List Token} {value : δ → α}
variable {continues starts : Kind → Bool} {close : Kind}

theorem comma?_eq_some {t : Token} {c : Unit} : comma? t = some c ↔ t.kind = .comma := by
  simp [comma?]

theorem comma?_eq_none {t : Token} : comma? t = none ↔ t.kind ≠ .comma := by
  simp [comma?]

theorem run_commaList (close : Kind) (item : Parser α) (input : List Token) :
    (commaList close item).run input =
      if input.head?.any (·.kind = close) then .ok ([], input)
      else (item >>= fun first => extend comma? (collect fun _ => item) [first] >>=
        fun items => pure items.reverse).run input := by
  unfold commaList
  rw [run_bind_of_ok (run_nextIs close input)]
  split_ifs <;> rfl

theorem commaList_sound (h : Reads item tokens value continues) {input rest : List Token}
    {values : List α} (hrun : (commaList close item).run input = .ok (values, rest)) :
    ∃ d : CommaList δ, input = d.tokens tokens ++ rest ∧ values = d.items.map value := by
  rw [run_commaList] at hrun
  split_ifs at hrun with hclose
  · cases hrun
    exact ⟨.none, rfl, rfl⟩
  · obtain ⟨a, middle, ha, hrun⟩ := run_bind_eq_ok.mp hrun
    obtain ⟨items, middle', hloop, hrev⟩ := run_bind_eq_ok.mp hrun
    cases hrev
    obtain ⟨first, rfl, rfl⟩ := h.sound ha
    have hmore : ∀ {t : Token} {c : Unit} {input rest : List Token} {a : α}, comma? t = some c →
        item.run input = .ok (a, rest) →
          ∃ m, t :: input = CommaList.moreTokens tokens m ++ rest ∧ a = value m.2 := by
      intro t c input rest a hc ha
      obtain ⟨d, rfl, rfl⟩ := h.sound ha
      exact ⟨(⟨t, comma?_eq_some.mp hc⟩, d), rfl, rfl⟩
    obtain ⟨more, rfl, rfl, -⟩ := run_collecting_sound hmore hloop
    refine ⟨.some first more, ?_, ?_⟩
    · rw [CommaList.tokens, List.append_assoc]
    · simp [CommaList.items]

theorem commaList_complete (h : Reads item tokens value continues) (hb : Begins tokens starts)
    (hstarts : starts close = false) (hcomma : continues .comma = false)
    (hclose : continues close = false) (hne : close ≠ .comma) (d : CommaList δ)
    {t : Token} (ht : t.kind = close) (rest : List Token) :
    (commaList close item).run (d.tokens tokens ++ t :: rest) =
      .ok (d.items.map value, t :: rest) := by
  rw [run_commaList]
  cases d with
  | none => simp [CommaList.tokens, CommaList.items, ht]
  | some first more =>
    obtain ⟨u, us, hu, hstart⟩ := hb first
    have hne' : u.kind ≠ close := by
      rintro rfl
      rw [hstarts] at hstart
      cases hstart
    have hhead : ¬ ((CommaList.some first more).tokens tokens ++ t :: rest).head?.any
        (·.kind = close) = true := by
      simp [CommaList.tokens, hu, hne']
    have hends : Ends continues (t :: rest) := ends_cons.mpr (ht ▸ hclose)
    have hnext : ∀ (m : Terminal .comma × δ) (rest : List Token),
        Ends continues (CommaList.moreTokens tokens m ++ rest) := by
      intro m rest
      rw [CommaList.moreTokens, List.cons_append, ends_cons, m.1.property]
      exact hcomma
    have hmore : ∀ (m : Terminal .comma × δ) {rest : List Token}, Ends continues rest →
        ∃ t ts c, CommaList.moreTokens tokens m = t :: ts ∧ comma? t = some c ∧
          item.run (ts ++ rest) = .ok (value m.2, rest) := by
      intro m rest hends
      exact ⟨m.1.val, tokens m.2, (), rfl, comma?_eq_some.mpr m.1.property, h.complete m.2 hends⟩
    have hstop : ∀ u ∈ (t :: rest).head?, comma? u = none := by
      rintro u ⟨⟩
      exact comma?_eq_none.mpr (ht ▸ hne)
    rw [if_neg hhead, CommaList.tokens, List.append_assoc,
      run_bind_of_ok (h.complete first (ends_flatMap hnext more hends)),
      run_bind_of_ok (run_collecting_complete continues hmore hnext more [value first] hends hstop)]
    simp [CommaList.items]

end CommaLists

end Scriptwright.Grammar
