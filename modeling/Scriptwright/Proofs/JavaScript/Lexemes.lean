import Scriptwright.Proofs.Token.Lexicon

/-!
# Numbers and the text behind them

Code is cut into names, numbers and single characters. There are two rules for how far a
number goes. A source has a point in a number only with a digit behind it. JavaScript takes
the point in any case, and lets no name begin right behind a number.

Lexemes that are written one after the other are read back by the first rule, if names and
numbers have other characters between them and a point has a name behind it. They are read
back by the rule of JavaScript exactly if, besides, there is no point behind a whole number.
-/

namespace Scriptwright

theorem Scan.isNamePart_of_isDigit {c : Char} (h : c.isDigit = true) : isNamePart c = true := by
  simp [isNamePart, Char.isAlphanum, h]

namespace JavaScript
open Scan (Stops Parted)

inductive Lexeme where
  | name (spelling : List Char)
  | number (spelling : List Char)
  | sign (c : Char)
  deriving DecidableEq

def Lexeme.characters : Lexeme → List Char
  | name spelling | number spelling => spelling
  | sign c => [c]

def Lexeme.number? : Lexeme → Option (List Char)
  | number spelling => some spelling
  | _ => none

/-- The numbers among lexemes, as they are spelled. -/
def numbers (ls : List Lexeme) : List (List Char) := ls.filterMap Lexeme.number?

/-- Cuts characters into lexemes. The rule says how many characters a number takes behind its
first digit. -/
def lexemes (rule : Char → List Char → Option Nat) (cs : List Char) : Option (List Lexeme) :=
  match cs with
  | [] => some []
  | c :: cs =>
    if c.isDigit then
      (rule c cs).bind fun n => (lexemes rule (cs.drop n)).map (.number (c :: cs.take n) :: ·)
    else if Scan.isNameStart c then
      (lexemes rule (cs.dropWhile Scan.isNamePart)).map
        (.name (c :: cs.takeWhile Scan.isNamePart) :: ·)
    else (lexemes rule cs).map (.sign c :: ·)
termination_by cs.length
decreasing_by
  · exact Nat.lt_succ_of_le (List.drop_sublist _ _).length_le
  · exact Nat.lt_succ_of_le (List.dropWhile_sublist _).length_le
  · exact Nat.lt_succ_self _

/-- Digits, and behind a point digits again. -/
def sourceRule (c : Char) (cs : List Char) : Option Nat := some (Scan.number c cs).2

/-- Digits, then perhaps a point, behind which there may be digits, and then no name. -/
def javaScriptRule (_ : Char) (cs : List Char) : Option Nat :=
  let whole := cs.takeWhile Char.isDigit
  let taken := match cs.drop whole.length with
    | '.' :: ds => whole.length + 1 + (ds.takeWhile Char.isDigit).length
    | _ => whole.length
  if (cs.drop taken).head?.any Scan.isNamePart then none else some taken

/-- Digits, and behind a point at least one more. -/
inductive IsDecimal : Char → List Char → Prop
  | whole {d : Char} {ds : List Char} (hd : d.isDigit = true) (hds : ∀ c ∈ ds, c.isDigit = true) :
      IsDecimal d ds
  | fraction {d : Char} {ds fs : List Char} (hd : d.isDigit = true)
      (hds : ∀ c ∈ ds, c.isDigit = true) (hfs : ∀ c ∈ fs, c.isDigit = true) (hne : fs ≠ []) :
      IsDecimal d (ds ++ '.' :: fs)

theorem IsDecimal.isDigit {d : Char} {ds : List Char} (h : IsDecimal d ds) : d.isDigit = true := by
  cases h <;> assumption

/-- The lexeme is spelled like what it is. -/
def Lexeme.Valid : Lexeme → Prop
  | name spelling => ∃ c cs, spelling = c :: cs ∧ Scan.isNameStart c = true ∧
      ∀ d ∈ cs, Scan.isNamePart d = true
  | number spelling => ∃ d ds, spelling = d :: ds ∧ IsDecimal d ds
  | sign c => Scan.isNamePart c = false

theorem sourceRule_of_parted {d : Char} {ds : List Char} (h : IsDecimal d ds) {rest : List Char}
    (hrest : Parted Scan.isNamePart rest) : sourceRule d (ds ++ rest) = some ds.length := by
  have hends := hrest.endsNumber fun _ => Scan.isNamePart_of_isDigit
  unfold sourceRule
  cases h with
  | whole hd hds => rw [Scan.number_whole d hds hends]
  | fraction hd hds hfs hne =>
    rw [List.append_assoc, List.cons_append, Scan.number_fraction d hds hfs hne hends.1,
      List.length_append, List.length_cons]

theorem any_head?_of_stops {p : Char → Bool} {rest : List Char} (h : Stops p rest) :
    rest.head?.any p = false := by
  cases rest with
  | nil => rfl
  | cons c rest => exact h c rfl

theorem javaScriptRule_point {ds fs rest : List Char} (hds : ∀ c ∈ ds, c.isDigit = true)
    (hfs : ∀ c ∈ fs, c.isDigit = true) (hrest : Stops Char.isDigit rest) (d : Char) :
    javaScriptRule d (ds ++ '.' :: (fs ++ rest)) =
      if rest.head?.any Scan.isNamePart then none else some (ds ++ '.' :: fs).length := by
  have hpoint : Stops Char.isDigit ('.' :: (fs ++ rest)) := by
    rintro c ⟨⟩
    rfl
  have hlength : ds.length + 1 + fs.length = (ds ++ '.' :: fs).length := by
    rw [List.length_append, List.length_cons]
    omega
  have hdrop : (ds ++ '.' :: (fs ++ rest)).drop (ds ++ '.' :: fs).length = rest := by
    rw [← List.cons_append, ← List.append_assoc, List.drop_left]
  unfold javaScriptRule
  simp only [Scan.takeWhile_of_stops hds hpoint, List.drop_left, Scan.takeWhile_of_stops hfs hrest,
    hlength, hdrop]

theorem javaScriptRule_whole {ds rest : List Char} (hds : ∀ c ∈ ds, c.isDigit = true)
    (hrest : Parted Scan.isNamePart rest) (hpoint : rest.head? ≠ some '.') (d : Char) :
    javaScriptRule d (ds ++ rest) = some ds.length := by
  have hends := hrest.endsNumber fun _ => Scan.isNamePart_of_isDigit
  unfold javaScriptRule
  simp only [Scan.takeWhile_of_stops hds hends.1, List.drop_left]
  split
  · exact absurd rfl hpoint
  · rw [List.drop_left, any_head?_of_stops hrest.name]
    rfl

/-- JavaScript ends a number where it is spelled to end, if it has a fraction or is not
followed by a point. -/
theorem javaScriptRule_of_parted {d : Char} {ds : List Char} (h : IsDecimal d ds)
    {rest : List Char} (hrest : Parted Scan.isNamePart rest)
    (hpoint : '.' ∈ ds ∨ rest.head? ≠ some '.') :
    javaScriptRule d (ds ++ rest) = some ds.length := by
  cases h with
  | whole hd hds =>
    refine javaScriptRule_whole hds hrest (hpoint.resolve_left fun hmem => ?_) d
    exact absurd (hds '.' hmem) (by decide)
  | fraction hd hds hfs hne =>
    have hends := hrest.endsNumber fun _ => Scan.isNamePart_of_isDigit
    rw [List.append_assoc, List.cons_append, javaScriptRule_point hds hfs hends.1,
      any_head?_of_stops hrest.name]
    rfl

section
variable {rule : Char → List Char → Option Nat} {rest : List Char}

theorem lexemes_name {spelling : List Char} (h : (Lexeme.name spelling).Valid)
    (hrest : Stops Scan.isNamePart rest) :
    lexemes rule (spelling ++ rest) = (lexemes rule rest).map (.name spelling :: ·) := by
  obtain ⟨c, cs, rfl, hc, hcs⟩ := h
  have hdigit : c.isDigit = false := by
    by_contra hdigit
    rw [Scan.not_isNameStart_of_isDigit (Bool.of_not_eq_false hdigit)] at hc
    cases hc
  rw [List.cons_append, lexemes, if_neg (by simp [hdigit]), if_pos hc,
    Scan.takeWhile_of_stops hcs hrest, Scan.dropWhile_of_stops hcs hrest]

theorem lexemes_number {d : Char} {ds : List Char} (hd : d.isDigit = true)
    (h : rule d (ds ++ rest) = some ds.length) :
    lexemes rule (d :: ds ++ rest) = (lexemes rule rest).map (.number (d :: ds) :: ·) := by
  rw [List.cons_append, lexemes, if_pos hd, h, Option.bind_some, List.drop_left, List.take_left]

theorem lexemes_sign {c : Char} (h : (Lexeme.sign c).Valid) :
    lexemes rule (c :: rest) = (lexemes rule rest).map (.sign c :: ·) := by
  have hdigit : c.isDigit = false := by
    by_contra hdigit
    rw [Lexeme.Valid, Scan.isNamePart_of_isDigit (Bool.of_not_eq_false hdigit)] at h
    cases h
  have hstart : Scan.isNameStart c = false := by
    by_contra hstart
    rw [Lexeme.Valid, Scan.isNamePart_of_isNameStart (Bool.of_not_eq_false hstart)] at h
    cases h
  rw [lexemes, if_neg (by simp [hdigit]), if_neg (by simp [hstart])]

end

/-- How a lexeme may stand before another one. -/
structure Meets (strict : Bool) (a b : Lexeme) : Prop where
  word (h : ∀ c, a ≠ .sign c) : ∃ c, b = .sign c
  point (h : a = .sign '.') : ∃ spelling, b = .name spelling
  /-- If `strict`, no point stands behind a whole number. -/
  whole (h : strict = true) {spelling : List Char} (ha : a = .number spelling)
    (hwhole : '.' ∉ spelling) : b ≠ .sign '.'

section
variable {a : Lexeme} {ls : List Lexeme}

theorem parted_of_isChain (ha : ∀ c, a ≠ .sign c) (hvalid : ∀ l ∈ ls, l.Valid) {strict : Bool}
    (hchain : (a :: ls).IsChain (Meets strict)) :
    Parted Scan.isNamePart (ls.flatMap Lexeme.characters) := by
  cases ls with
  | nil => exact ⟨fun c hc => (by cases hc), rfl⟩
  | cons b ls =>
    obtain ⟨hmeets, hchain⟩ := List.isChain_cons_cons.mp hchain
    obtain ⟨c, rfl⟩ := hmeets.word ha
    refine ⟨?_, Lexicon.fraction_eq_nil_iff.mpr ?_⟩
    · rintro _ ⟨⟩
      exact hvalid _ List.mem_cons_self
    · intro e more heq
      obtain ⟨rfl, hmore⟩ := List.cons.inj heq
      cases ls with
      | nil => cases hmore
      | cons b ls =>
        obtain ⟨spelling, rfl⟩ := (List.isChain_cons_cons.mp hchain).1.point rfl
        obtain ⟨f, fs, rfl, hf, -⟩ := hvalid _ (List.mem_cons_of_mem _ List.mem_cons_self)
        obtain ⟨rfl, -⟩ := List.cons.inj hmore
        by_contra hdigit
        rw [Scan.not_isNameStart_of_isDigit (Bool.of_not_eq_false hdigit)] at hf
        cases hf

/-- A lexeme is read back before the others, if the rule ends it there in case it is a
number. -/
theorem lexemes_cons {rule : Char → List Char → Option Nat} (hvalid : ∀ l ∈ a :: ls, l.Valid)
    {strict : Bool} (hchain : (a :: ls).IsChain (Meets strict))
    (hrule : ∀ d ds, a = .number (d :: ds) → IsDecimal d ds →
      Parted Scan.isNamePart (ls.flatMap Lexeme.characters) →
        rule d (ds ++ ls.flatMap Lexeme.characters) = some ds.length) :
    lexemes rule ((a :: ls).flatMap Lexeme.characters) =
      (lexemes rule (ls.flatMap Lexeme.characters)).map (a :: ·) := by
  obtain ⟨ha, hls⟩ := List.forall_mem_cons.mp hvalid
  rw [List.flatMap_cons]
  cases a with
  | name spelling =>
    exact lexemes_name ha (parted_of_isChain (fun c => by simp) hls hchain).name
  | number spelling =>
    obtain ⟨d, ds, rfl, hdecimal⟩ := ha
    have hparted := parted_of_isChain (fun c => by simp) hls hchain
    exact lexemes_number hdecimal.isDigit (hrule d ds rfl hdecimal hparted)
  | sign c => exact lexemes_sign ha

end

theorem lexemes_sourceRule {ls : List Lexeme} (hvalid : ∀ l ∈ ls, l.Valid)
    (hchain : ls.IsChain (Meets false)) :
    lexemes sourceRule (ls.flatMap Lexeme.characters) = some ls := by
  induction ls with
  | nil => rw [List.flatMap_nil, lexemes]
  | cons a ls ih =>
    rw [lexemes_cons hvalid hchain fun d ds _ hdecimal hparted =>
      sourceRule_of_parted hdecimal hparted, ih (List.forall_mem_cons.mp hvalid).2 hchain.tail]
    rfl

/-- JavaScript takes the point behind a whole number for a part of it. -/
theorem numbers_of_whole {d : Char} {ds : List Char} (hdecimal : IsDecimal d ds) (hwhole : '.' ∉ ds)
    {rest : List Char} (hparted : Parted Scan.isNamePart ('.' :: rest)) {read : List Lexeme}
    (h : lexemes javaScriptRule (d :: ds ++ '.' :: rest) = some read) :
    ∃ more, numbers read = (d :: (ds ++ ['.'])) :: more := by
  cases hdecimal with
  | fraction => simp at hwhole
  | whole hd hds =>
    have hstops : Stops Char.isDigit rest := by
      intro c hc
      have hfraction := Lexicon.fraction_eq_nil_iff.mp hparted.fraction
      cases rest with
      | nil => cases hc
      | cons c' rest =>
        cases hc
        exact hfraction c rest rfl
    have hrule := javaScriptRule_point hds (List.forall_mem_nil _) hstops d
    rw [List.nil_append] at hrule
    rw [List.cons_append, lexemes, if_pos hd, hrule] at h
    split_ifs at h with hname
    · cases h
    · rw [Option.bind_some, Option.map_eq_some_iff] at h
      obtain ⟨later, -, rfl⟩ := h
      have htake : (ds ++ '.' :: rest).take (ds ++ ['.']).length = ds ++ ['.'] := by
        rw [List.append_cons ds '.' rest, List.take_left]
      rw [htake]
      exact ⟨numbers later, rfl⟩

theorem numbers_cons_inj (a : Lexeme) {ls read : List Lexeme} :
    numbers (a :: read) = numbers (a :: ls) ↔ numbers read = numbers ls := by
  cases a with
  | number spelling => exact ⟨fun h => (List.cons.inj h).2, fun h => congrArg (spelling :: ·) h⟩
  | name | sign => exact Iff.rfl

section
variable {a : Lexeme} {ls : List Lexeme} (hchain : (a :: ls).IsChain (Meets false))
  (hgood : ∀ spelling, a = .number spelling → '.' ∉ spelling → ls.head? ≠ some (.sign '.'))
include hchain hgood

theorem isChain_strict_cons :
    (a :: ls).IsChain (Meets true) ↔ ls.IsChain (Meets true) := by
  refine ⟨fun h => h.tail, fun h => List.isChain_cons.mpr ⟨fun b hb => ?_, h⟩⟩
  have hmeets := (List.isChain_cons.mp hchain).1 b hb
  refine ⟨hmeets.word, hmeets.point, ?_⟩
  rintro - spelling ha hwhole rfl
  exact hgood spelling ha hwhole hb

theorem lexemes_javaScriptRule_cons (hvalid : ∀ l ∈ a :: ls, l.Valid) :
    lexemes javaScriptRule ((a :: ls).flatMap Lexeme.characters) =
      (lexemes javaScriptRule (ls.flatMap Lexeme.characters)).map (a :: ·) := by
  refine lexemes_cons hvalid hchain fun d ds ha hdecimal hparted => ?_
  subst ha
  refine javaScriptRule_of_parted hdecimal hparted (or_iff_not_imp_left.mpr fun hds => ?_)
  have hwhole : '.' ∉ d :: ds := by
    rintro (_ | hmem)
    · exact absurd hdecimal.isDigit (by decide)
    · contradiction
  have hhead := hgood _ rfl hwhole
  cases ls with
  | nil => simp
  | cons b ls =>
    obtain ⟨c, rfl⟩ := (List.isChain_cons_cons.mp hchain).1.word fun c => by simp
    simpa [Lexeme.characters] using hhead

end

/-- JavaScript reads the same numbers exactly if no point stands behind a whole number. -/
theorem lexemes_javaScriptRule_iff {ls : List Lexeme} (hvalid : ∀ l ∈ ls, l.Valid)
    (hchain : ls.IsChain (Meets false)) :
    (∃ read, lexemes javaScriptRule (ls.flatMap Lexeme.characters) = some read ∧
      numbers read = numbers ls) ↔ ls.IsChain (Meets true) := by
  induction ls with
  | nil =>
    rw [List.flatMap_nil, lexemes]
    exact iff_of_true ⟨[], rfl, rfl⟩ .nil
  | cons a ls ih =>
    have hls := ih (List.forall_mem_cons.mp hvalid).2 hchain.tail
    by_cases hgood : ∀ spelling, a = .number spelling → '.' ∉ spelling →
        ls.head? ≠ some (.sign '.')
    · rw [lexemes_javaScriptRule_cons hchain hgood hvalid, isChain_strict_cons hchain hgood, ← hls]
      constructor
      · rintro ⟨read, hread, hnumbers⟩
        obtain ⟨later, hlater, rfl⟩ := Option.map_eq_some_iff.mp hread
        exact ⟨later, hlater, (numbers_cons_inj a).mp hnumbers⟩
      · rintro ⟨later, hlater, hnumbers⟩
        exact ⟨a :: later, Option.map_eq_some_iff.mpr ⟨later, hlater, rfl⟩,
          (numbers_cons_inj a).mpr hnumbers⟩
    · push Not at hgood
      obtain ⟨spelling, rfl, hwhole, hhead⟩ := hgood
      obtain ⟨ls, rfl⟩ := List.head?_eq_some_iff.mp hhead
      refine iff_of_false ?_ fun hstrict => ?_
      · rintro ⟨read, hread, hnumbers⟩
        obtain ⟨hvalid, hrest⟩ := List.forall_mem_cons.mp hvalid
        obtain ⟨d, ds, rfl, hdecimal⟩ := hvalid
        have hparted := parted_of_isChain (fun c => by simp) hrest hchain
        have hds : '.' ∉ ds := fun hmem => hwhole (List.mem_cons_of_mem d hmem)
        obtain ⟨more, hmore⟩ := numbers_of_whole hdecimal hds hparted hread
        rw [hmore] at hnumbers
        have hlonger := (List.cons.inj hnumbers).1
        simp at hlonger
      · exact (List.isChain_cons_cons.mp hstrict).1.whole rfl rfl hwhole rfl

end JavaScript

end Scriptwright
