import Scriptwright.Proofs.Binary64.Shortest
import Scriptwright.Proofs.JavaScript.Literal
import Scriptwright.Proofs.Token.Cut

/-!
# Numbers survive printing

A number token is written with the digits of its double alone. These digits are a text that is
one number token again, so the second printing begins with the double of the first one and ends
with its text.
-/

namespace Scriptwright

open Lexicon (One Run)

/-- Digits, and behind a point digits again. Without places there is no point. -/
structure Numeral where
  first : One Char.isDigit
  more : Run Char.isDigit
  places : Run Char.isDigit

namespace Numeral

/-- The characters behind the first digit. -/
def rest (n : Numeral) : List Char :=
  n.more.val ++ if n.places.val = [] then [] else '.' :: n.places.val

def text (n : Numeral) : String := String.ofList (n.first.val :: n.rest)

/-- The digits as one number, as if there were no point. -/
def digits (n : Numeral) : Nat := Nat.ofDigitChars 10 (n.first.val :: n.more.val ++ n.places.val) 0

def value (n : Numeral) : ℚ := n.digits / 10 ^ n.places.val.length

def double (n : Numeral) : Binary64 := .ofDecimal n.digits n.places.val.length

end Numeral

/-- The token of a text that is a number as a whole. -/
def Token.ofNumber (file : Nat) (text : String) (x : Binary64) : Token :=
  ⟨.number, text, .number x, ⟨file, 0, text.utf8ByteSize⟩⟩

/-- The token is an expression by itself, and this is its JavaScript. -/
def Token.WrittenAs (t : Token) (javaScript : String) : Prop :=
  ∃ e, Parser.run (Parser.expr nestingLimit) [t] = .ok (e, []) ∧ e.javaScript = javaScript

/-- The text is one number token with the value `x`, and `javaScript` is written for it. -/
structure IsLiteral (file : Nat) (text : String) (x : Binary64) (javaScript : String) : Prop where
  scanned : scan file text = .ok [.ofNumber file text x, .finish file text.utf8ByteSize]
  written : (Token.ofNumber file text x).WrittenAs javaScript

theorem scan_of_number (file : Nat) {d : Char} {ds : List Char} {x : Binary64}
    (hd : d.isDigit = true) (h : Scan.number d ds = (x, ds.length)) :
    scan file (String.ofList (d :: ds)) =
      .ok [.ofNumber file (String.ofList (d :: ds)) x,
        .finish file (String.ofList (d :: ds)).utf8ByteSize] := by
  have hblank : ¬ Scan.isBlank d = true := by
    rw [Lexicon.not_isBlank_of_isDigit hd]
    exact Bool.false_ne_true
  have hcomment : ¬ (d = '/' ∧ ds.head? = some '/') := by
    rintro ⟨rfl, -⟩
    cases hd
  have hlexeme : Scan.lexeme file 0 d ds = .ok (.number, .number x, ds.length) :=
    Scan.lexeme_eq_ok_iff.mpr (Lexicon.scanned_number hd h)
  unfold scan
  rw [String.toList_ofList, Scan.tokens_lexeme hblank hcomment, hlexeme, utf8ByteSize_ofList]
  change (Scan.tokens file (0 + byteLength (d :: ds.take ds.length)) (ds.drop ds.length) >>= _) = _
  rw [List.take_length, List.drop_length, Nat.zero_add, Scan.tokens, Token.ofNumber,
    utf8ByteSize_ofList]
  rfl

open Grammar in
theorem Token.writtenAs_number {t : Token} {x : Binary64} (hkind : t.kind = .number)
    (hvalue : t.value = .number x) : t.WrittenAs x.javaScript := by
  have hdenotes : term? t = some (.number x t.span) := by
    simp [term?, hkind, hvalue]
  have hrun := (expr_reads nestingLimit).complete
    (ExprTree.single (.plain (.term ⟨t, .number x t.span, hdenotes⟩) []) rfl) (ends_nil _)
  exact ⟨_, hrun, rfl⟩

theorem isLiteral_of_number (file : Nat) {d : Char} {ds : List Char} {x : Binary64}
    (hd : d.isDigit = true) (h : Scan.number d ds = (x, ds.length)) :
    IsLiteral file (String.ofList (d :: ds)) x x.javaScript where
  scanned := scan_of_number file hd h
  written := Token.writtenAs_number rfl rfl

theorem Numeral.number_rest (n : Numeral) :
    Scan.number n.first.val n.rest = (n.double, n.rest.length) := by
  unfold rest double digits
  split_ifs with hplaces
  · rw [Scan.number_whole _ n.more.property Scan.endsNumber_nil]
    simp [hplaces]
  · have hfraction := Scan.number_fraction n.first.val n.more.property n.places.property hplaces
      Scan.endsNumber_nil.1
    rw [List.append_nil] at hfraction
    rw [hfraction, List.length_append, List.length_cons]

/-- What is read for a number depends on its characters alone. -/
theorem Scan.number_take (c : Char) (cs : List Char) :
    number c (cs.take (number c cs).2) =
      ((number c cs).1, (cs.take (number c cs).2).length) := by
  obtain ⟨more, rest, rfl, hrest | ⟨place, places, after, rfl, hafter⟩⟩ := Lexicon.exists_number cs
  · rw [number_whole c more.property hrest, List.take_left]
    have hwhole := number_whole c more.property endsNumber_nil
    rwa [List.append_nil] at hwhole
  · have hplaces : ∀ d ∈ place.val :: places.val, d.isDigit = true :=
      List.forall_mem_cons.mpr ⟨place.property, places.property⟩
    have htake : (more.val ++ '.' :: (place.val :: places.val ++ after)).take
        (more.val.length + ((place.val :: places.val).length + 1)) =
        more.val ++ '.' :: (place.val :: places.val) := by
      rw [List.take_length_add_append, List.take_succ_cons, List.take_left]
    have hfraction := number_fraction c more.property hplaces (List.cons_ne_nil _ _)
      endsNumber_nil.1
    rw [List.append_nil] at hfraction
    rw [← List.cons_append, number_fraction c more.property hplaces (List.cons_ne_nil _ _) hafter,
      htake, hfraction, List.length_append]
    rfl

theorem Numeral.value_of_scan {file : Nat} {source : String} {tokens : List Token}
    (hscan : scan file source = .ok tokens) {t : Token} (ht : t ∈ tokens) (hkind : t.kind = .number)
    {n : Numeral} (hlexeme : t.lexeme = n.text) : t.value = .number n.double := by
  rcases Scan.lexed_or_finish hscan ht with ⟨offset, c, cs, taken, hlexed, hspelled⟩ | ⟨stop, rfl⟩
  · have hsame : c :: cs.take taken = n.first.val :: n.rest := by
      rw [hlexeme] at hspelled
      exact (String.ofList_injective hspelled).symm
    obtain ⟨hfirst, hrest⟩ := List.cons.inj hsame
    rw [hkind] at hlexed
    generalize t.value = value at hlexed ⊢
    cases hlexed with
    | number =>
      have htake := Scan.number_take c cs
      rw [hrest, hfirst, n.number_rest] at htake
      rw [hfirst, ← congrArg Prod.fst htake]
    | symbol h => cases Scan.isSymbolKind_of_symbol? h
  · cases hkind

namespace Binary64

def IsFinite (x : Binary64) : Prop := x.magnitude < infinityBits

instance (x : Binary64) : Decidable x.IsFinite := inferInstanceAs (Decidable (_ < _))

section
variable {x : Binary64} (h : x.bits.toNat ≤ infinityBits)
include h

theorem javaScript_of_isFinite (hfinite : x.IsFinite) :
    x.javaScript = String.ofList (shortest x.bits.toNat) := by
  have hinfinite : x.isInfinite = false := beq_false_of_ne hfinite.ne
  rw [javaScript_of_le h, hinfinite, magnitude_of_le h]
  rfl

theorem javaScript_of_not_isFinite (hfinite : ¬ x.IsFinite) : x.javaScript = "Infinity" := by
  have hmagnitude : x.magnitude = infinityBits := by
    refine Nat.le_antisymm ?_ (Nat.le_of_not_lt hfinite)
    rwa [magnitude_of_le h]
  have hinfinite : x.isInfinite = true := beq_iff_eq.mpr hmagnitude
  rw [javaScript_of_le h, hinfinite]
  rfl

end

end Binary64

/-- What is written for a finite double is a number again, with that double as its value. -/
theorem isLiteral_javaScript (file : Nat) {x : Binary64}
    (h : x.bits.toNat ≤ Binary64.infinityBits) (hfinite : x.IsFinite) :
    IsLiteral file x.javaScript x x.javaScript := by
  obtain ⟨d, ds, hshortest, hd, hread⟩ := Binary64.readAs_shortest h Scan.endsNumber_nil
  rw [List.append_nil] at hread
  rw [Binary64.magnitude_of_le h] at hshortest
  have hliteral := isLiteral_of_number file hd hread
  rwa [← hshortest, ← Binary64.javaScript_of_isFinite h hfinite] at hliteral

namespace Numeral

theorem bits_double (n : Numeral) :
    n.double.bits.toNat = Binary64.nearestBits n.digits (Nat.pow 10 n.places.val.length) :=
  Binary64.bits_ofDecimal _ _

theorem bits_double_le (n : Numeral) : n.double.bits.toNat ≤ Binary64.infinityBits := by
  rw [bits_double]
  exact Binary64.nearestBits_le _ _

theorem nearest_double (n : Numeral) :
    Binary64.NearestAmong (· ≤ Binary64.infinityBits) (n.value * Binary64.stepsInOne)
      n.double.bits.toNat := by
  have hpos := Binary64.pow_pos_of_pos 10 n.places.val.length (Nat.succ_pos 9)
  have hvalue : n.value * Binary64.stepsInOne =
      (n.digits * Binary64.stepsInOne : Nat) / (Nat.pow 10 n.places.val.length : Nat) := by
    have hpow : ((Nat.pow 10 n.places.val.length : Nat) : ℚ) = 10 ^ n.places.val.length :=
      Nat.cast_pow 10 _
    rw [value, hpow, Nat.cast_mul, div_mul_eq_mul_div]
  rw [bits_double, hvalue]
  exact Binary64.nearestAmong_nearestBits _ hpos

end Numeral

/-- A numeral is one token with the nearest double as its value, here and in any text. If that is
finite, then the shortest decimal of the double is written, and this is one token with the same
value again, for which the same text is written. Otherwise infinity is written. -/
theorem numeral_survives_printing (file : Nat) (n : Numeral) :
    IsLiteral file n.text n.double n.double.javaScript ∧
      (∀ source tokens, scan file source = .ok tokens → ∀ t ∈ tokens, t.kind = .number →
        t.lexeme = n.text → t.value = .number n.double ∧ t.WrittenAs n.double.javaScript) ∧
      Binary64.NearestAmong (· ≤ Binary64.infinityBits) (n.value * Binary64.stepsInOne)
        n.double.bits.toNat ∧
      if n.double.IsFinite then
        IsLiteral file n.double.javaScript n.double n.double.javaScript ∧
          ∃ t c, n.double.javaScript.toList = Binary64.positional t c ∧
            Binary64.ShortestDecimal n.double.bits.toNat t c
      else n.double.javaScript = "Infinity" := by
  have hle := n.bits_double_le
  refine ⟨isLiteral_of_number file n.first.property n.number_rest, ?_, n.nearest_double, ?_⟩
  · intro source tokens hscan t ht hkind hlexeme
    have hvalue := Numeral.value_of_scan hscan ht hkind hlexeme
    exact ⟨hvalue, Token.writtenAs_number hkind hvalue⟩
  · split_ifs with hfinite
    · have hlt : n.double.bits.toNat < Binary64.infinityBits := by
        rwa [← Binary64.magnitude_of_le hle]
      obtain ⟨t, c, hshortest, hdecimal⟩ := Binary64.exists_shortestDecimal hlt
      refine ⟨isLiteral_javaScript file hle hfinite, t, c, ?_, hdecimal⟩
      rw [Binary64.javaScript_of_isFinite hle hfinite, String.toList_ofList, hshortest]
    · exact Binary64.javaScript_of_not_isFinite hle hfinite

theorem isDigit_replicate_zero (k : Nat) : ∀ c ∈ List.replicate k '0', c.isDigit = true :=
  fun _ hc => List.eq_of_mem_replicate hc ▸ rfl

/-- The digits of a power of ten. -/
def Numeral.powerOfTen (k : Nat) : Numeral :=
  ⟨⟨'1', rfl⟩, ⟨List.replicate k '0', isDigit_replicate_zero k⟩, ⟨[], List.forall_mem_nil _⟩⟩

def Numeral.paddedThreeTenths : Numeral :=
  ⟨⟨'0', rfl⟩, ⟨['0'], isDigit_replicate_zero 1⟩,
    ⟨['3', '0'], List.forall_mem_cons.mpr ⟨rfl, isDigit_replicate_zero 1⟩⟩⟩

/-- Digits that say nothing are not written again, and `10 ^ 309` is written as infinity. -/
theorem numeral_survives_padding_and_overflow :
    (IsLiteral 0 "00.30" (.ofDecimal 3 1) "0.3" ∧ IsLiteral 0 "0.3" (.ofDecimal 3 1) "0.3") ∧
      IsLiteral 0 (Numeral.powerOfTen 309).text (Numeral.powerOfTen 309).double "Infinity" := by
  constructor
  · have hsurvives := numeral_survives_printing 0 .paddedThreeTenths
    have hdouble : Numeral.paddedThreeTenths.double = .ofDecimal 3 1 := by decide +kernel
    have hwritten : (Binary64.ofDecimal 3 1).javaScript = "0.3" := by decide +kernel
    have hfinite : (Binary64.ofDecimal 3 1).IsFinite := by decide +kernel
    rw [hdouble, if_pos hfinite, hwritten] at hsurvives
    exact ⟨hsurvives.1, hsurvives.2.2.2.1⟩
  · have hsurvives := numeral_survives_printing 0 (.powerOfTen 309)
    have hfinite : ¬ (Numeral.powerOfTen 309).double.IsFinite := by decide +kernel
    generalize Numeral.powerOfTen 309 = n at hsurvives hfinite ⊢
    obtain ⟨hliteral, -, -, hinfinity⟩ := hsurvives
    rw [if_neg hfinite] at hinfinity
    rwa [hinfinity] at hliteral

end Scriptwright
