import Mathlib.Algebra.Order.Ring.Nat
import Mathlib.Data.Nat.Log
import Scriptwright.Binary64.Decimal
import Scriptwright.Proofs.Token.Scan

/-!
# A written number reads back

Rounding a quotient depends on its value alone, so it may be computed with any common
factor. A finite double is a quotient itself and is its own rounding. The search for the
fewest digits therefore ends with digits that read back, on the finest grid at the
latest, and its digits are laid out as the reader of numbers expects them.
-/

namespace Scriptwright

theorem roundHalfEven_mul_right (n d : Nat) {m : Nat} (hm : 0 < m) :
    roundHalfEven (n * m) (d * m) = roundHalfEven n d := by
  have hscale : ∀ a b : Nat, a * m < b * m ↔ a < b := fun a b => Nat.mul_lt_mul_right hm
  unfold roundHalfEven
  simp only [Nat.mul_div_mul_right n d hm, Nat.mul_mod_mul_right m n d, ← Nat.mul_assoc, hscale]

theorem roundHalfEven_exact (q : Nat) {d : Nat} (hd : 0 < d) : roundHalfEven (q * d) d = q := by
  unfold roundHalfEven
  simp only [Nat.mul_div_cancel q hd, Nat.mul_mod_left, Nat.mul_zero, hd, if_true]

namespace Binary64

theorem nearestBits_mul_right (n d : Nat) {m : Nat} (hm : 0 < m) :
    nearestBits (n * m) (d * m) = nearestBits n d := by
  have hscaled : n * m * Nat.pow 2 1074 = n * Nat.pow 2 1074 * m := Nat.mul_right_comm n m _
  have hround : ∀ u : Nat, d * m * Nat.pow 2 u = d * Nat.pow 2 u * m :=
    fun u => Nat.mul_right_comm d m _
  unfold nearestBits
  simp only [hscaled, hround, roundHalfEven_mul_right _ _ hm, Nat.mul_div_mul_right _ _ hm]

theorem nearestBits_zero (d : Nat) : nearestBits 0 d = 0 := by
  have hround : ∀ e : Nat, roundHalfEven 0 e = 0 := by
    intro e
    unfold roundHalfEven
    simp
  unfold nearestBits
  simp only [Nat.zero_mul, Nat.zero_div, Nat.log2_zero, Nat.zero_sub, hround, Nat.add_zero,
    Nat.min_zero]

/-- The power of two that the significand is scaled by. -/
def scale (b : Nat) : Nat := b / Nat.pow 2 52 - 1

def significand (b : Nat) : Nat := b - scale b * Nat.pow 2 52

theorem scale_add_significand (b : Nat) : scale b * Nat.pow 2 52 + significand b = b := by
  have hquotient : scale b * Nat.pow 2 52 ≤ b / Nat.pow 2 52 * Nat.pow 2 52 :=
    Nat.mul_le_mul_right _ (Nat.sub_le _ _)
  exact Nat.add_sub_cancel' (hquotient.trans (Nat.div_mul_le_self b _))

theorem scale_of_lt {b : Nat} (h : b < Nat.pow 2 52) : scale b = 0 := by
  unfold scale
  rw [Nat.div_eq_of_lt h]

/-- From the first normal double on, the significand has all its digits. -/
theorem significand_of_le {b : Nat} (h : Nat.pow 2 52 ≤ b) :
    significand b = Nat.pow 2 52 + b % Nat.pow 2 52 := by
  have hpos : 0 < Nat.pow 2 52 := Nat.pow_pos (by decide)
  have hquotient : scale b + 1 = b / Nat.pow 2 52 := Nat.sub_add_cancel (Nat.div_pos h hpos)
  have hsum := scale_add_significand b
  have hdivision := Nat.div_add_mod b (Nat.pow 2 52)
  rw [← hquotient, Nat.mul_comm, Nat.add_mul, Nat.one_mul] at hdivision
  generalize Nat.pow 2 52 = base at *
  omega

theorem log2_significand (b : Nat) :
    Nat.log2 (significand b * Nat.pow 2 (scale b)) - 52 = scale b := by
  by_cases hb : b < Nat.pow 2 52
  · have hsignificand : significand b = b := by
      unfold significand
      rw [scale_of_lt hb, Nat.zero_mul, Nat.sub_zero]
    rw [scale_of_lt hb, hsignificand, show Nat.pow 2 0 = 1 from rfl, Nat.mul_one]
    by_cases hzero : b = 0
    · rw [hzero]
      rfl
    · have hlog : b.log2 < 52 := (Nat.log2_lt hzero).mpr hb
      omega
  · have hle : Nat.pow 2 52 ≤ b := Nat.le_of_not_lt hb
    have hpos : 0 < Nat.pow 2 (scale b) := Nat.pow_pos (by decide)
    have hmod : b % Nat.pow 2 52 < Nat.pow 2 52 := Nat.mod_lt b (Nat.pow_pos (by decide))
    have hsignificand := significand_of_le hle
    have hlower : Nat.pow 2 52 ≤ significand b := hsignificand ▸ Nat.le_add_right _ _
    have hupper : significand b < Nat.pow 2 53 := by
      have hdouble : Nat.pow 2 53 = Nat.pow 2 52 + Nat.pow 2 52 := rfl
      rw [hsignificand, hdouble]
      exact Nat.add_lt_add_left hmod _
    have hlog : (significand b * Nat.pow 2 (scale b)).log2 = 52 + scale b := by
      have hne : significand b * Nat.pow 2 (scale b) ≠ 0 :=
        Nat.mul_ne_zero (Nat.ne_of_gt (Nat.lt_of_lt_of_le (Nat.pow_pos (by decide)) hlower))
          (Nat.ne_of_gt hpos)
      rw [Nat.log2_eq_iff hne]
      constructor
      · rw [Nat.pow_add]
        exact Nat.mul_le_mul_right _ hlower
      · rw [Nat.add_right_comm, Nat.pow_add]
        exact Nat.mul_lt_mul_of_pos_right hupper hpos
    rw [hlog, Nat.add_sub_cancel_left]

theorem pow_pos_of_pos (base exponent : Nat) (h : 0 < base) : 0 < Nat.pow base exponent :=
  Nat.pow_pos h

theorem mul_pow_five_mul_pow_two (m n : Nat) :
    m * Nat.pow 5 n * Nat.pow 2 n = m * Nat.pow 10 n := by
  rw [Nat.mul_assoc]
  exact congrArg (m * ·) (Nat.mul_pow 5 2 n).symm

theorem nearestBits_units {b : Nat} (h : b ≤ infinityBits) :
    nearestBits (units b) (Nat.pow 10 1074) = b := by
  have hten := pow_pos_of_pos 10 1074 (Nat.succ_pos 9)
  have hscaled : units b * Nat.pow 2 1074 =
      significand b * Nat.pow 2 (scale b) * Nat.pow 10 1074 := by
    unfold units
    exact mul_pow_five_mul_pow_two _ 1074
  have hround : roundHalfEven (significand b * Nat.pow 2 (scale b) * Nat.pow 10 1074)
      (Nat.pow 10 1074 * Nat.pow 2 (scale b)) = significand b := by
    rw [Nat.mul_assoc, Nat.mul_comm (Nat.pow 2 _)]
    exact roundHalfEven_exact _ (Nat.mul_pos hten (pow_pos_of_pos 2 _ (by decide)))
  unfold nearestBits
  simp only [hscaled, Nat.mul_div_cancel _ hten, log2_significand, hround, scale_add_significand]
  exact Nat.min_eq_right h

theorem accepts_nearer {accepts : Nat → Bool} {below c : Nat} {preferBelow : Bool}
    (h : nearer? accepts below preferBelow = some c) : accepts c = true := by
  unfold nearer? at h
  split at h
  · next hbelow habove =>
    cases h
    split
    · exact hbelow
    · exact habove
  · next hbelow _ =>
    cases h
    exact hbelow
  · next _ habove =>
    cases h
    exact habove
  · cases h

theorem firstFrom_spec {find? : Nat → Option Nat} {finest : Nat} {P : Nat → Nat → Prop}
    (hfinest : P 0 finest) (hfind : ∀ t c, find? t = some c → P t c) (t : Nat) :
    P (firstFrom find? finest t).1 (firstFrom find? finest t).2 := by
  induction t with
  | zero => exact hfinest
  | succ t ih =>
    unfold firstFrom
    split
    · next c hc => exact hfind (t + 1) c hc
    · exact ih

theorem readsBack_neighbour (b t c : Nat) (h : neighbour? b t = some c) :
    readsBack b t c = true := by
  unfold neighbour? at h
  have haccepts := accepts_nearer h
  exact haccepts

theorem readsBack_units {b : Nat} (h : b ≤ infinityBits) : readsBack b 0 (units b) = true := by
  have hone : units b * Nat.pow 10 0 = units b := Nat.mul_one _
  unfold readsBack
  rw [hone, nearestBits_units h, beq_self_eq_true]

theorem readsBack_coarsest {b : Nat} (h : b ≤ infinityBits) (t : Nat) :
    readsBack b (coarsest b t).1 (coarsest b t).2 = true := by
  have hfirst := @firstFrom_spec (neighbour? b) (units b) (fun t c => readsBack b t c = true)
    (readsBack_units h) (readsBack_neighbour b) t
  exact hfirst

/-- The digits `cs` before `rest` are read as the double `x`. -/
def ReadAs (cs rest : List Char) (x : Binary64) : Prop :=
  ∃ d ds, cs = d :: ds ∧ d.isDigit = true ∧ Scan.number d (ds ++ rest) = (x, ds.length)

theorem isDigit_toDigits (n : Nat) : ∀ c ∈ Nat.toDigits 10 n, c.isDigit = true := by
  intro c hc
  exact Nat.isDigit_of_mem_toDigits (by decide) (by decide) hc

theorem exists_toDigits (n : Nat) : ∃ d ds, Nat.toDigits 10 n = d :: ds :=
  List.exists_cons_of_ne_nil Nat.toDigits_ne_nil

theorem readAs_whole (n : Nat) {rest : List Char} (hrest : Scan.EndsNumber rest) :
    ReadAs (Nat.toDigits 10 n) rest (.ofDecimal n 0) := by
  obtain ⟨d, ds, hds⟩ := exists_toDigits n
  have hdigits := isDigit_toDigits n
  have hvalue : Nat.ofDigitChars 10 (d :: ds) 0 = n := by
    rw [← hds]
    exact Nat.ofDigitChars_ten_toDigits
  rw [hds] at hdigits
  refine ⟨d, ds, hds, hdigits d List.mem_cons_self, ?_⟩
  rw [Scan.number_whole d (fun c hc => hdigits c (List.mem_cons_of_mem d hc)) hrest, hvalue]

/-- The digits behind the point, padded to the given number. -/
theorem ofDigitChars_leftpad (places n : Nat) :
    Nat.ofDigitChars 10 ((Nat.toDigits 10 n).leftpad places '0') 0 = n := by
  rw [List.leftpad, Nat.ofDigitChars_append, Nat.ofDigitChars_replicate_zero, Nat.mul_zero,
    Nat.ofDigitChars_ten_toDigits]

theorem length_leftpad_digits {places n : Nat} (hplaces : 0 < places) (hn : n < 10 ^ places) :
    ((Nat.toDigits 10 n).leftpad places '0').length = places := by
  have hle : (Nat.toDigits 10 n).length ≤ places :=
    (Nat.length_toDigits_le_iff (by decide) hplaces).mpr hn
  rw [List.leftpad, List.length_append, List.length_replicate]
  omega

theorem readAs_fraction (c : Nat) {places : Nat} (hplaces : 0 < places) {rest : List Char}
    (hrest : ∀ c ∈ rest.head?, c.isDigit = false) :
    ReadAs (Nat.toDigits 10 (c / Nat.pow 10 places) ++
        '.' :: (Nat.toDigits 10 (c % Nat.pow 10 places)).leftpad places '0') rest
      (.ofDecimal c places) := by
  obtain ⟨d, ds, hds⟩ := exists_toDigits (c / Nat.pow 10 places)
  generalize hfs : (Nat.toDigits 10 (c % Nat.pow 10 places)).leftpad places '0' = fs
  have hwhole := isDigit_toDigits (c / Nat.pow 10 places)
  have hmod : c % Nat.pow 10 places < 10 ^ places := Nat.mod_lt c (Nat.pow_pos (by decide))
  have hlength : fs.length = places := hfs ▸ length_leftpad_digits hplaces hmod
  have hfsDigits : ∀ c ∈ fs, c.isDigit = true := by
    intro x hx
    rw [← hfs, List.leftpad, List.mem_append] at hx
    rcases hx with hx | hx
    · rw [List.eq_of_mem_replicate hx]
      rfl
    · exact isDigit_toDigits _ x hx
  have hne : fs ≠ [] := by
    intro hnil
    rw [hnil] at hlength
    exact absurd hlength (Nat.ne_of_lt hplaces)
  have hvalue : Nat.ofDigitChars 10 (d :: ds ++ fs) 0 = c := by
    rw [← hds, Nat.ofDigitChars_append, Nat.ofDigitChars_ten_toDigits,
      Nat.ofDigitChars_eq_ofDigitChars_zero, hlength, ← hfs, ofDigitChars_leftpad]
    exact Nat.div_add_mod c (10 ^ places)
  rw [hds] at hwhole
  refine ⟨d, ds ++ '.' :: fs, ?_, hwhole d List.mem_cons_self, ?_⟩
  · rw [hds, List.cons_append]
  · rw [List.append_assoc, List.cons_append,
      Scan.number_fraction d (fun c hc => hwhole c (List.mem_cons_of_mem d hc)) hfsDigits hne hrest,
      hvalue, hlength]
    simp [hlength]

theorem nearestBits_of_grid_ge {scale t : Nat} (h : scale ≤ t) (c : Nat) :
    nearestBits (c * Nat.pow 10 (t - scale)) (Nat.pow 10 0) =
      nearestBits (c * Nat.pow 10 t) (Nat.pow 10 scale) := by
  have hpow : Nat.pow 10 (t - scale) * Nat.pow 10 scale = Nat.pow 10 t := by
    change 10 ^ (t - scale) * 10 ^ scale = 10 ^ t
    rw [← Nat.pow_add, Nat.sub_add_cancel h]
  have hscaled := nearestBits_mul_right (c * Nat.pow 10 (t - scale)) (Nat.pow 10 0)
    (pow_pos_of_pos 10 scale (by decide))
  rw [← hscaled, Nat.mul_assoc, hpow, show Nat.pow 10 0 = 1 from rfl, Nat.one_mul]

theorem nearestBits_of_grid_lt {scale t : Nat} (h : t ≤ scale) (c : Nat) :
    nearestBits c (Nat.pow 10 (scale - t)) =
      nearestBits (c * Nat.pow 10 t) (Nat.pow 10 scale) := by
  have hpow : Nat.pow 10 (scale - t) * Nat.pow 10 t = Nat.pow 10 scale := by
    change 10 ^ (scale - t) * 10 ^ t = 10 ^ scale
    rw [← Nat.pow_add, Nat.sub_add_cancel h]
  have hscaled := nearestBits_mul_right c (Nat.pow 10 (scale - t))
    (pow_pos_of_pos 10 t (by decide))
  rw [← hscaled, hpow]

theorem readAs_positional (t c : Nat) {rest : List Char} (hrest : Scan.EndsNumber rest) :
    ReadAs (positional t c) rest
      ⟨(nearestBits (c * Nat.pow 10 t) (Nat.pow 10 1074)).toUInt64⟩ := by
  unfold positional
  split
  · next ht =>
    have hgrid := nearestBits_of_grid_ge ht c
    rw [← hgrid]
    exact readAs_whole _ hrest
  · next ht =>
    have hgrid := nearestBits_of_grid_lt (Nat.le_of_not_le ht) c
    rw [← hgrid]
    exact readAs_fraction c (Nat.sub_pos_of_lt (Nat.lt_of_not_le ht)) hrest.1

/-- A double between zero and infinity, infinity included, has no sign. -/
theorem magnitude_of_le {x : Binary64} (h : x.bits.toNat ≤ infinityBits) :
    x.magnitude = x.bits.toNat := by
  have hlt : infinityBits < Nat.pow 2 63 := by decide
  exact Nat.mod_eq_of_lt (Nat.lt_of_le_of_lt h hlt)

theorem readAs_of_readsBack {x : Binary64} {t c : Nat} (h : readsBack x.bits.toNat t c = true)
    {rest : List Char} (hrest : Scan.EndsNumber rest) : ReadAs (positional t c) rest x := by
  have hbits : x.bits.toNat.toUInt64 = x.bits := UInt64.ofNat_toNat
  have hread := readAs_positional t c hrest
  unfold readsBack at h
  have hnearest := eq_of_beq h
  rw [hnearest, hbits] at hread
  exact hread

/-- What is written for a finite double is read as that double. -/
theorem readAs_shortest {x : Binary64} (h : x.bits.toNat ≤ infinityBits) {rest : List Char}
    (hrest : Scan.EndsNumber rest) : ReadAs (shortest x.magnitude) rest x := by
  rw [magnitude_of_le h]
  unfold shortest
  split
  · next hzero =>
    have hx : x = .ofDecimal 0 0 := by
      have hbits : x.bits = 0 := UInt64.toNat_inj.mp hzero
      unfold ofDecimal
      rw [nearestBits_zero]
      exact congrArg Binary64.mk hbits
    have hread := readAs_whole 0 hrest
    rw [← hx] at hread
    exact hread
  · have hback := readsBack_coarsest h (outerGrid x.bits.toNat)
    generalize coarsest x.bits.toNat (outerGrid x.bits.toNat) = found at hback ⊢
    obtain ⟨t, c⟩ := found
    exact readAs_of_readsBack hback hrest

end Binary64

end Scriptwright
