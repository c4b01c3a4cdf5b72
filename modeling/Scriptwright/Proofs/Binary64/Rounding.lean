import Mathlib.Algebra.Order.Field.Rat
import Mathlib.Tactic.FieldSimp
import Mathlib.Tactic.Linarith
import Mathlib.Tactic.Positivity
import Scriptwright.Proofs.Binary64.Decimal

/-!
# Reading rounds to the nearest double

A double without its sign is a number of steps of the smallest positive double, and more steps
are greater bits. Within a binade the steps are the multiples of a power of two, and below it
they are closer. So the nearest multiple of that power is the nearest double, infinity counted
as the step behind the largest finite double.

Hence reading depends on the value of a decimal alone, and a greater decimal is not read as a
smaller double.
-/

namespace Scriptwright

/-- The rounded quotient is at most a half away, and even where it is a half away. -/
theorem abs_roundHalfEven_sub_le (n : Nat) {d : Nat} (hd : 0 < d) :
    |(roundHalfEven n d : ℚ) - n / d| ≤ 1 / 2 ∧
      (|(roundHalfEven n d : ℚ) - n / d| = 1 / 2 → roundHalfEven n d % 2 = 0) := by
  have hdq : (0 : ℚ) < d := by exact_mod_cast hd
  obtain ⟨q, hq⟩ : ∃ q, n / d = q := ⟨_, rfl⟩
  obtain ⟨r, hr⟩ : ∃ r, n % d = r := ⟨_, rfl⟩
  have hn : (n : ℚ) / d = q + r / d := by
    have hdivision : (d * q + r : ℚ) = n := by
      rw [← hq, ← hr]
      exact_mod_cast Nat.div_add_mod n d
    rw [← hdivision]
    field_simp
  have hnonneg : (0 : ℚ) ≤ r / d := by positivity
  unfold roundHalfEven
  simp only [hq, hr, hn]
  split_ifs with hbelow habove
  · have hlt : (r : ℚ) / d < 1 / 2 := by
      rw [div_lt_div_iff₀ hdq two_pos, mul_comm, one_mul]
      exact_mod_cast hbelow
    rw [abs_sub_comm, abs_of_nonneg (by linarith)]
    exact ⟨by linarith, fun h => by linarith⟩
  · have hgt : 1 / 2 < (r : ℚ) / d := by
      rw [div_lt_div_iff₀ two_pos hdq, one_mul, mul_comm]
      exact_mod_cast habove
    have hlt : (r : ℚ) / d < 1 := by
      rw [div_lt_one hdq]
      exact_mod_cast hr ▸ Nat.mod_lt n hd
    rw [Nat.cast_add_one, abs_of_nonneg (by linarith)]
    exact ⟨by linarith, fun h => by linarith⟩
  · have hhalf : (r : ℚ) / d = 1 / 2 := by
      rw [div_eq_div_iff hdq.ne' two_ne_zero, one_mul, mul_comm]
      exact_mod_cast Nat.le_antisymm (Nat.le_of_not_lt habove) (Nat.le_of_not_lt hbelow)
    refine ⟨?_, fun _ => by omega⟩
    rw [hhalf, Nat.cast_add, abs_le]
    have hnonneg' : (0 : ℚ) ≤ (q % 2 : Nat) := Nat.cast_nonneg _
    have hparity : ((q % 2 : Nat) : ℚ) ≤ 1 := by
      exact_mod_cast Nat.le_of_lt_succ (Nat.mod_lt q two_pos)
    constructor <;> linarith

/-- No integer is nearer to a quotient than the rounded one. Another one that is as near leaves
it even. -/
theorem abs_roundHalfEven_sub_le_abs (n : Nat) {d : Nat} (hd : 0 < d) (k : Nat) :
    |(roundHalfEven n d : ℚ) - n / d| ≤ |(k : ℚ) - n / d| ∧
      (|(roundHalfEven n d : ℚ) - n / d| = |(k : ℚ) - n / d| →
        k = roundHalfEven n d ∨ roundHalfEven n d % 2 = 0) := by
  obtain ⟨hle, heven⟩ := abs_roundHalfEven_sub_le n hd
  by_cases hk : k = roundHalfEven n d
  · rw [hk]
    exact ⟨le_rfl, fun _ => .inl rfl⟩
  · have hone : (1 : ℚ) ≤ |(k : ℚ) - roundHalfEven n d| := by
      have hne : (k : ℤ) - roundHalfEven n d ≠ 0 := by omega
      exact_mod_cast Int.one_le_abs hne
    have htriangle := abs_sub_le (k : ℚ) (n / d) (roundHalfEven n d)
    rw [abs_sub_comm ((n : ℚ) / d)] at htriangle
    exact ⟨by linarith, fun heq => .inr (heven (by linarith))⟩

/-- The rounded quotient stays between integers that the quotient is between. -/
theorem roundHalfEven_between {n d low high : Nat} (hd : 0 < d) (hlow : low * d ≤ n)
    (hhigh : n ≤ high * d) : low ≤ roundHalfEven n d ∧ roundHalfEven n d ≤ high := by
  have hq : low ≤ n / d := (Nat.le_div_iff_mul_le hd).mpr hlow
  rcases Nat.lt_or_eq_of_le hhigh with hlt | rfl
  · have hlt : n / d < high := (Nat.div_lt_iff_lt_mul hd).mpr hlt
    unfold roundHalfEven
    dsimp only
    split_ifs <;> omega
  · rw [Nat.mul_div_cancel _ hd] at hq
    rw [roundHalfEven_exact high hd]
    exact ⟨hq, le_rfl⟩

namespace Binary64

/-- How often the smallest positive double goes into one. -/
def stepsInOne : Nat := Nat.pow 2 1074

theorem stepsInOne_pos : 0 < stepsInOne := by
  unfold stepsInOne
  apply pow_pos_of_pos
  exact Nat.succ_pos 1

/-- How often the smallest positive double goes into the one with unsigned bits `b`. -/
def steps (b : Nat) : Nat := significand b * Nat.pow 2 (scale b)

theorem two_pow_fiftyThree : Nat.pow 2 53 = Nat.pow 2 52 + Nat.pow 2 52 := rfl

theorem significand_of_lt {b : Nat} (h : b < Nat.pow 2 52) : significand b = b := by
  rw [significand, scale_of_lt h, Nat.zero_mul, Nat.sub_zero]

theorem significand_lt (b : Nat) : significand b < Nat.pow 2 53 := by
  have hpos : 0 < Nat.pow 2 52 := Nat.pow_pos two_pos
  rw [two_pow_fiftyThree]
  rcases Nat.lt_or_ge b (Nat.pow 2 52) with hlt | hge
  · rw [significand_of_lt hlt]
    exact Nat.lt_add_right _ hlt
  · rw [significand_of_le hge]
    exact Nat.add_lt_add_left (Nat.mod_lt b hpos) _

/-- A double of a later binade has all its digits. -/
theorem le_significand_of_scale {b : Nat} (h : 0 < scale b) : Nat.pow 2 52 ≤ significand b := by
  have hge : Nat.pow 2 52 ≤ b := by
    refine Nat.le_of_not_lt fun hlt => ?_
    rw [scale_of_lt hlt] at h
    exact Nat.lt_irrefl 0 h
  rw [significand_of_le hge]
  exact Nat.le_add_right _ _

theorem scale_of_parts {u m : Nat} (hlow : Nat.pow 2 52 ≤ m) (hhigh : m < Nat.pow 2 53) :
    scale (u * Nat.pow 2 52 + m) = u := by
  have hpos : 0 < Nat.pow 2 52 := Nat.pow_pos two_pos
  have hone : m / Nat.pow 2 52 = 1 := by
    refine Nat.div_eq_of_lt_le (by rwa [Nat.one_mul]) ?_
    rwa [Nat.add_mul, Nat.one_mul, ← two_pow_fiftyThree]
  rw [scale, Nat.add_comm, Nat.add_mul_div_right _ _ hpos, hone, Nat.add_sub_cancel_left]

/-- The bits of a number of steps that is a multiple of a power of two. -/
theorem steps_of_parts {u m : Nat} (h : u = 0 ∨ Nat.pow 2 52 ≤ m) (hm : m ≤ Nat.pow 2 53) :
    steps (u * Nat.pow 2 52 + m) = m * Nat.pow 2 u := by
  have hparts {u m : Nat} (hlow : Nat.pow 2 52 ≤ m) (hhigh : m < Nat.pow 2 53) :
      steps (u * Nat.pow 2 52 + m) = m * Nat.pow 2 u := by
    rw [steps, significand, scale_of_parts hlow hhigh, Nat.add_sub_cancel_left]
  rcases Nat.lt_or_ge m (Nat.pow 2 52) with hlt | hge
  · cases h.resolve_right (Nat.not_le_of_lt hlt)
    rw [Nat.zero_mul, Nat.zero_add, steps, significand_of_lt hlt, scale_of_lt hlt]
  · rcases Nat.lt_or_eq_of_le hm with hlt | rfl
    · exact hparts hge hlt
    · -- The carry out of a binade is the first double of the next one.
      have hlt : Nat.pow 2 52 < Nat.pow 2 53 := Nat.pow_lt_pow_right one_lt_two (by decide)
      have hcarry : u * Nat.pow 2 52 + Nat.pow 2 53 = (u + 1) * Nat.pow 2 52 + Nat.pow 2 52 := by
        rw [two_pow_fiftyThree, Nat.add_mul, Nat.one_mul, Nat.add_assoc]
      have hdouble : Nat.pow 2 (u + 1) = 2 * Nat.pow 2 u := Nat.pow_succ'
      rw [hcarry, hparts le_rfl hlt, hdouble, two_pow_fiftyThree, ← Nat.two_mul, ← Nat.mul_assoc,
        Nat.mul_comm (Nat.pow 2 52)]

theorem scale_mono {b c : Nat} (h : b ≤ c) : scale b ≤ scale c :=
  Nat.sub_le_sub_right (Nat.div_le_div_right h) 1

/-- Doubles of an earlier binade are below the first one of a later binade. -/
theorem steps_lt_of_scale_lt {b u : Nat} (h : scale b < u) :
    steps b < Nat.pow 2 52 * Nat.pow 2 u := by
  have hpos : 0 < Nat.pow 2 (scale b) := Nat.pow_pos two_pos
  have hdouble : Nat.pow 2 53 * Nat.pow 2 (scale b) = Nat.pow 2 52 * Nat.pow 2 (scale b + 1) := by
    have hsucc : Nat.pow 2 (scale b + 1) = 2 * Nat.pow 2 (scale b) := Nat.pow_succ'
    rw [hsucc, two_pow_fiftyThree, ← Nat.two_mul, ← Nat.mul_assoc, Nat.mul_comm (Nat.pow 2 52)]
  calc steps b < Nat.pow 2 53 * Nat.pow 2 (scale b) :=
        Nat.mul_lt_mul_of_pos_right (significand_lt b) hpos
    _ = Nat.pow 2 52 * Nat.pow 2 (scale b + 1) := hdouble
    _ ≤ Nat.pow 2 52 * Nat.pow 2 u := Nat.mul_le_mul_left _ (Nat.pow_le_pow_right two_pos h)

/-- More steps are greater bits. -/
theorem steps_lt_steps {b c : Nat} (h : b < c) : steps b < steps c := by
  rcases Nat.lt_or_eq_of_le (scale_mono h.le) with hlt | heq
  · have hfull := le_significand_of_scale (Nat.zero_lt_of_lt hlt)
    exact (steps_lt_of_scale_lt hlt).trans_le (Nat.mul_le_mul_right _ hfull)
  · have hb := scale_add_significand b
    have hc := scale_add_significand c
    have hsignificand : significand b < significand c := by
      rw [heq] at hb
      omega
    unfold steps
    rw [heq]
    exact Nat.mul_lt_mul_of_pos_right hsignificand (Nat.pow_pos two_pos)

theorem steps_le_steps {b c : Nat} (h : b ≤ c) : steps b ≤ steps c := by
  rcases Nat.lt_or_eq_of_le h with hlt | rfl
  · exact (steps_lt_steps hlt).le
  · exact le_rfl

theorem steps_injective {b c : Nat} (h : steps b = steps c) : b = c := by
  rcases Nat.lt_trichotomy b c with hlt | heq | hgt
  · exact absurd h (steps_lt_steps hlt).ne
  · exact heq
  · exact absurd h (steps_lt_steps hgt).ne'

/-- The bits of no other double are nearer to the number of steps `x`, and of two that are as
near the even ones are meant. -/
def NearestAmong (among : Nat → Prop) (x : ℚ) (b : Nat) : Prop :=
  ∀ c, among c → |(steps b : ℚ) - x| ≤ |(steps c : ℚ) - x| ∧
    (|(steps b : ℚ) - x| = |(steps c : ℚ) - x| → c = b ∨ b % 2 = 0)

theorem abs_mul_sub_div (k n : Nat) {d p : Nat} (hd : 0 < d) (hp : 0 < p) :
    |((k * p : Nat) : ℚ) - n / d| = |(k : ℚ) - n / (d * p : Nat)| * p := by
  have hdq : (0 : ℚ) < d := by exact_mod_cast hd
  have hpq : (0 : ℚ) < p := by exact_mod_cast hp
  have hfactor : ((k * p : Nat) : ℚ) - n / d = ((k : ℚ) - n / (d * p : Nat)) * p := by
    push_cast
    field_simp
  rw [hfactor, abs_mul, abs_of_pos hpq]

section
variable {n d u : Nat} (hd : 0 < d) (hhigh : n ≤ Nat.pow 2 53 * (d * Nat.pow 2 u))
  (hlow : u = 0 ∨ Nat.pow 2 52 * (d * Nat.pow 2 u) ≤ n)
include hd hhigh hlow

theorem steps_of_binade : steps (u * Nat.pow 2 52 + roundHalfEven n (d * Nat.pow 2 u)) =
    roundHalfEven n (d * Nat.pow 2 u) * Nat.pow 2 u := by
  have hdu : 0 < d * Nat.pow 2 u := Nat.mul_pos hd (Nat.pow_pos two_pos)
  apply steps_of_parts
  · exact hlow.imp_right fun h => (roundHalfEven_between hdu h hhigh).1
  · exact (roundHalfEven_between hdu (Nat.zero_mul _ ▸ Nat.zero_le n) hhigh).2

/-- In a binade the doubles are the multiples of a power of two, and below it they are less than
the first of these. So the nearest multiple is the nearest double. -/
theorem nearestAmong_of_binade : NearestAmong (fun _ => True) (n / d)
    (u * Nat.pow 2 52 + roundHalfEven n (d * Nat.pow 2 u)) := by
  intro c _
  have hpos : 0 < Nat.pow 2 u := Nat.pow_pos two_pos
  have hposq : (0 : ℚ) < Nat.pow 2 u := by exact_mod_cast hpos
  have hdu : 0 < d * Nat.pow 2 u := Nat.mul_pos hd hpos
  have hsteps := steps_of_binade hd hhigh hlow
  have hround := abs_roundHalfEven_sub_le_abs n hdu
  generalize roundHalfEven n (d * Nat.pow 2 u) = m at hsteps hround ⊢
  rw [hsteps, abs_mul_sub_div m n hd hpos]
  rcases Nat.lt_or_ge (scale c) u with hlt | hge
  · have hbelow : ((steps c : Nat) : ℚ) < (Nat.pow 2 52 * Nat.pow 2 u : Nat) := by
      exact_mod_cast steps_lt_of_scale_lt hlt
    have habove : ((Nat.pow 2 52 * Nat.pow 2 u : Nat) : ℚ) ≤ n / d := by
      have hfull := hlow.resolve_left (Nat.ne_of_gt (Nat.zero_lt_of_lt hlt))
      rw [le_div_iff₀ (by exact_mod_cast hd)]
      exact_mod_cast Nat.mul_right_comm _ _ _ ▸ Nat.mul_assoc (Nat.pow 2 52) d _ ▸ hfull
    have hfirst := mul_le_mul_of_nonneg_right (hround (Nat.pow 2 52)).1 hposq.le
    rw [← abs_mul_sub_div (Nat.pow 2 52) n hd hpos, abs_of_nonpos (sub_nonpos.mpr habove)] at hfirst
    have hstrict : |(m : ℚ) - n / (d * Nat.pow 2 u : Nat)| * (Nat.pow 2 u : Nat) <
        |(steps c : ℚ) - n / d| := by
      rw [abs_of_nonpos (by linarith : (steps c : ℚ) - n / d ≤ 0)]
      linarith
    exact ⟨hstrict.le, fun heq => absurd heq hstrict.ne⟩
  · obtain ⟨k, hk⟩ : ∃ k, steps c = k * Nat.pow 2 u := by
      refine ⟨significand c * Nat.pow 2 (scale c - u), ?_⟩
      have hpow : Nat.pow 2 (scale c - u) * Nat.pow 2 u = Nat.pow 2 (scale c) :=
        Nat.pow_sub_mul_pow 2 hge
      rw [steps, Nat.mul_assoc, hpow]
    rw [hk, abs_mul_sub_div k n hd hpos]
    refine ⟨mul_le_mul_of_nonneg_right (hround k).1 hposq.le, fun heq => ?_⟩
    rcases (hround k).2 (mul_right_cancel₀ hposq.ne' heq) with rfl | heven
    · exact .inl (steps_injective (hk.trans hsteps.symm))
    · right
      have hbase : Nat.pow 2 52 % 2 = 0 := rfl
      rw [Nat.add_mod, Nat.mul_mod, hbase, heven, Nat.mul_zero]

end

/-- The binade of the number `n / d` of steps. -/
theorem binade_of_log2 (n : Nat) {d : Nat} (hd : 0 < d) :
    n ≤ Nat.pow 2 53 * (d * Nat.pow 2 (Nat.log2 (n / d) - 52)) ∧
      (Nat.log2 (n / d) - 52 = 0 ∨
        Nat.pow 2 52 * (d * Nat.pow 2 (Nat.log2 (n / d) - 52)) ≤ n) := by
  have hpow (a b : Nat) : Nat.pow 2 a * (d * Nat.pow 2 b) = d * 2 ^ (a + b) := by
    rw [Nat.mul_left_comm]
    exact congrArg (d * ·) (Nat.pow_add 2 a b).symm
  rw [hpow, hpow]
  constructor
  · have hlog : n / d < 2 ^ (Nat.log2 (n / d) + 1) := Nat.lt_log2_self
    calc n ≤ d * (n / d + 1) := (Nat.lt_mul_div_succ n hd).le
      _ ≤ d * 2 ^ (Nat.log2 (n / d) + 1) := Nat.mul_le_mul_left d hlog
      _ ≤ d * 2 ^ (53 + (Nat.log2 (n / d) - 52)) :=
        Nat.mul_le_mul_left d (Nat.pow_le_pow_right two_pos (by omega))
  · by_cases hzero : Nat.log2 (n / d) - 52 = 0
    · exact .inl hzero
    · right
      have hne : n / d ≠ 0 := by
        intro hzero'
        rw [hzero', Nat.log2_zero] at hzero
        exact hzero rfl
      have hexponent : 52 + (Nat.log2 (n / d) - 52) = Nat.log2 (n / d) := by omega
      calc d * 2 ^ (52 + (Nat.log2 (n / d) - 52)) = d * 2 ^ Nat.log2 (n / d) := by rw [hexponent]
        _ ≤ d * (n / d) := Nat.mul_le_mul_left d (Nat.log2_self_le hne)
        _ ≤ n := Nat.mul_div_le n d

theorem nearestBits_eq_min (n d : Nat) : nearestBits n d =
    min infinityBits ((Nat.log2 (n * stepsInOne / d) - 52) * Nat.pow 2 52 +
      roundHalfEven (n * stepsInOne) (d * Nat.pow 2 (Nat.log2 (n * stepsInOne / d) - 52))) := by
  unfold nearestBits stepsInOne
  dsimp only

/-- What is read for a quotient is the nearest double, infinity included. -/
theorem nearestAmong_nearestBits (n : Nat) {d : Nat} (hd : 0 < d) :
    NearestAmong (· ≤ infinityBits) ((n * stepsInOne : Nat) / d) (nearestBits n d) := by
  intro c hc
  obtain ⟨hhigh, hlow⟩ := binade_of_log2 (n * stepsInOne) hd
  have hall := nearestAmong_of_binade hd hhigh hlow
  rw [nearestBits_eq_min]
  generalize (n * stepsInOne / d).log2 - 52 = u at hall ⊢
  generalize u * Nat.pow 2 52 + roundHalfEven (n * stepsInOne) (d * Nat.pow 2 u) = b at hall ⊢
  generalize ((n * stepsInOne : Nat) : ℚ) / d = x at hall ⊢
  rcases Nat.lt_or_ge infinityBits b with hgt | hle
  · -- Beyond infinity all doubles are below `x`, and infinity is the greatest.
    have hinfinity : (steps infinityBits : ℚ) < steps b := by exact_mod_cast steps_lt_steps hgt
    have hcle : (steps c : ℚ) ≤ steps infinityBits := by exact_mod_cast steps_le_steps hc
    have hx : (steps infinityBits : ℚ) < x := by
      by_contra hle
      have hnear := (hall infinityBits trivial).1
      rw [abs_of_nonneg (by linarith), abs_of_nonneg (by linarith)] at hnear
      linarith
    rw [Nat.min_eq_left hgt.le, abs_of_nonpos (by linarith), abs_of_nonpos (by linarith)]
    exact ⟨by linarith, fun _ => .inr rfl⟩
  · rw [Nat.min_eq_right hle]
    exact hall c trivial

section
variable {a b x : ℚ} (hlt : b < a)
include hlt

theorem add_le_of_abs_sub_le (h : |a - x| ≤ |b - x|) : a + b ≤ 2 * x := by
  rcases abs_cases (a - x) with ha | ha <;> rcases abs_cases (b - x) with hb | hb <;> linarith

theorem le_add_of_abs_sub_le (h : |b - x| ≤ |a - x|) : 2 * x ≤ a + b := by
  rcases abs_cases (a - x) with ha | ha <;> rcases abs_cases (b - x) with hb | hb <;> linarith

end

section
variable {n d m e : Nat} (hd : 0 < d) (he : 0 < e)
include hd he

theorem nearestBits_eq_of_mul_eq (h : n * e = m * d) : nearestBits n d = nearestBits m e := by
  rw [← nearestBits_mul_right n d he, ← nearestBits_mul_right m e hd, h, Nat.mul_comm d e]

theorem div_le_div_iff_mul_le {k : Nat} (hk : 0 < k) :
    ((n * k : Nat) : ℚ) / d ≤ (m * k : Nat) / e ↔ n * e ≤ m * d := by
  rw [div_le_div_iff₀ (by exact_mod_cast hd) (by exact_mod_cast he)]
  norm_cast
  rw [Nat.mul_right_comm, Nat.mul_right_comm m]
  exact Nat.mul_le_mul_right_iff hk

/-- A greater quotient is not read as a smaller double. -/
theorem nearestBits_mono (h : n * e ≤ m * d) : nearestBits n d ≤ nearestBits m e := by
  by_contra hgt
  have hlt : (steps (nearestBits m e) : ℚ) < steps (nearestBits n d) := by
    exact_mod_cast steps_lt_steps (Nat.lt_of_not_le hgt)
  -- The first quotient is not below the middle of the two doubles, and the second not above.
  have hn := add_le_of_abs_sub_le hlt (nearestAmong_nearestBits n hd _ (nearestBits_le m e)).1
  have hm := le_add_of_abs_sub_le hlt (nearestAmong_nearestBits m he _ (nearestBits_le n d)).1
  have hle := le_of_mul_le_mul_left (hm.trans hn) two_pos
  have hge : m * d ≤ n * e := (div_le_div_iff_mul_le he hd stepsInOne_pos).mp hle
  exact hgt (nearestBits_eq_of_mul_eq hd he (Nat.le_antisymm h hge)).le

end

end Binary64

end Scriptwright
