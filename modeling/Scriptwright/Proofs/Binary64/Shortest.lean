import Scriptwright.Proofs.Binary64.Rounding

/-!
# The fewest digits that read back

The decimals that are read as one double have no gaps, since reading is monotone. So if any
point of a grid reads back, then one of the two neighbours of the double does, and a grid on
which the search finds nothing has no such point. Beyond the grid that the search starts with
the points are zero or at least the double after the given one.

A decimal with fewer digits than the one that is found would be on a coarser grid, or a power
of ten between the two decimals would be.
-/

namespace Scriptwright.Binary64

/-- How many units, the steps of the finest grid, go into one. -/
def unitsInOne : Nat := Nat.pow 10 1074

theorem unitsInOne_pos : 0 < unitsInOne := by
  unfold unitsInOne
  apply pow_pos_of_pos
  exact Nat.succ_pos 9

theorem readsBack_iff {b t c : Nat} :
    readsBack b t c = true ↔ nearestBits (c * Nat.pow 10 t) unitsInOne = b := by
  unfold readsBack unitsInOne
  exact beq_iff_eq

theorem nearestBits_unitsInOne {b : Nat} (h : b ≤ infinityBits) :
    nearestBits (units b) unitsInOne = b := by
  unfold unitsInOne
  exact nearestBits_units h

section
variable {b n d m e k f : Nat} (hd : 0 < d) (he : 0 < e) (hf : 0 < f)
include hd he hf

theorem nearestBits_of_between (hlow : n * f ≤ k * d) (hhigh : k * e ≤ m * f)
    (hn : nearestBits n d = b) (hm : nearestBits m e = b) : nearestBits k f = b := by
  apply Nat.le_antisymm
  · rw [← hm]
    exact nearestBits_mono hf he hhigh
  · rw [← hn]
    exact nearestBits_mono hd hf hlow

end

theorem nearestBits_of_le_of_le {b x y z : Nat} (hxy : x ≤ y) (hyz : y ≤ z)
    (hx : nearestBits x unitsInOne = b) (hz : nearestBits z unitsInOne = b) :
    nearestBits y unitsInOne = b :=
  nearestBits_of_between unitsInOne_pos unitsInOne_pos unitsInOne_pos
    (Nat.mul_le_mul_right _ hxy) (Nat.mul_le_mul_right _ hyz) hx hz

section
variable {b t k : Nat} (hb : b ≤ infinityBits) (hk : readsBack b t k = true)
include hb hk

theorem readsBack_below (h : k ≤ units b / Nat.pow 10 t) :
    readsBack b t (units b / Nat.pow 10 t) = true := by
  rw [readsBack_iff] at hk ⊢
  exact nearestBits_of_le_of_le (Nat.mul_le_mul_right _ h) (Nat.div_mul_le_self _ _) hk
    (nearestBits_unitsInOne hb)

theorem readsBack_above (h : units b / Nat.pow 10 t < k) :
    readsBack b t (units b / Nat.pow 10 t + 1) = true := by
  have hpos : 0 < Nat.pow 10 t := pow_pos_of_pos 10 t (Nat.succ_pos 9)
  have hunits : units b ≤ (units b / Nat.pow 10 t + 1) * Nat.pow 10 t := by
    rw [Nat.mul_comm]
    exact (Nat.lt_mul_div_succ _ hpos).le
  rw [readsBack_iff] at hk ⊢
  exact nearestBits_of_le_of_le hunits (Nat.mul_le_mul_right _ h) (nearestBits_unitsInOne hb) hk

end

theorem nearer?_eq_none {accepts : Nat → Bool} {below : Nat} {preferBelow : Bool}
    (h : nearer? accepts below preferBelow = none) :
    accepts below = false ∧ accepts (below + 1) = false := by
  unfold nearer? at h
  split at h
  · cases h
  · cases h
  · cases h
  · next hbelow habove => exact ⟨hbelow, habove⟩

/-- What is found is one of the two, and where both are accepted it is the preferred one. -/
theorem nearer?_eq_some {accepts : Nat → Bool} {below c : Nat} {preferBelow : Bool}
    (h : nearer? accepts below preferBelow = some c) :
    (c = below ∧ (accepts (below + 1) = true → preferBelow = true)) ∨
      (c = below + 1 ∧ (accepts below = true → preferBelow = false)) := by
  unfold nearer? at h
  split at h
  · cases preferBelow
    · exact .inr ⟨(Option.some.inj h).symm, fun _ => rfl⟩
    · exact .inl ⟨(Option.some.inj h).symm, fun _ => rfl⟩
  · next _ habove => exact .inl ⟨(Option.some.inj h).symm, fun h => by rw [habove] at h; cases h⟩
  · next hbelow _ => exact .inr ⟨(Option.some.inj h).symm, fun h => by rw [hbelow] at h; cases h⟩
  · cases h

/-- A grid without a neighbour that reads back has no point that does. -/
theorem readsBack_of_neighbour?_eq_none {b t : Nat} (hb : b ≤ infinityBits)
    (h : neighbour? b t = none) (k : Nat) : readsBack b t k = false := by
  unfold neighbour? at h
  obtain ⟨hbelow, habove⟩ := nearer?_eq_none h
  rw [Bool.eq_false_iff]
  intro hk
  rcases Nat.lt_or_ge (units b / Nat.pow 10 t) k with hlt | hge
  · rw [readsBack_above hb hk hlt] at habove
    cases habove
  · rw [readsBack_below hb hk hge] at hbelow
    cases hbelow

/-- How many units `c` steps of the grid `t` are away from the double. -/
def distance (b t c : Nat) : Int := |(c * Nat.pow 10 t : Nat) - (units b : Int)|

/-- Of the points of the grid that read back, `c` is the nearest to the double. Of two that are
as near it is the larger. -/
def NearestOnGrid (b t c : Nat) : Prop :=
  ∀ k, readsBack b t k = true →
    distance b t c ≤ distance b t k ∧ (distance b t c = distance b t k → k ≤ c)

theorem distance_of_le {b t c : Nat} (h : c * Nat.pow 10 t ≤ units b) :
    distance b t c = (units b : Int) - (c * Nat.pow 10 t : Nat) := by
  unfold distance
  rw [abs_sub_comm, abs_of_nonneg (by omega)]

theorem distance_of_ge {b t c : Nat} (h : units b ≤ c * Nat.pow 10 t) :
    distance b t c = (c * Nat.pow 10 t : Nat) - (units b : Int) := by
  unfold distance
  rw [abs_of_nonneg (by omega)]

theorem nearestOnGrid_of_neighbour? {b t c : Nat} (hb : b ≤ infinityBits)
    (h : neighbour? b t = some c) : NearestOnGrid b t c := by
  intro k hk
  have hpos : 0 < Nat.pow 10 t := pow_pos_of_pos 10 t (Nat.succ_pos 9)
  have hbelow := readsBack_below hb hk
  have habove := readsBack_above hb hk
  have hdivision := Nat.div_add_mod (units b) (Nat.pow 10 t)
  have hmod := Nat.mod_lt (units b) hpos
  unfold neighbour? at h
  have hfound := nearer?_eq_some h
  have hmono (i j : Nat) (hij : i ≤ j) : i * Nat.pow 10 t ≤ j * Nat.pow 10 t :=
    Nat.mul_le_mul_right _ hij
  rw [Nat.mul_comm] at hdivision
  rw [decide_eq_true_eq, decide_eq_false_iff_not] at hfound
  have hnext : (units b / Nat.pow 10 t + 1) * Nat.pow 10 t =
      units b / Nat.pow 10 t * Nat.pow 10 t + Nat.pow 10 t := Nat.succ_mul _ _
  generalize units b / Nat.pow 10 t = below at *
  generalize units b % Nat.pow 10 t = rest at *
  -- The neighbour on the side of `k` reads back, so `c` is that one or a nearer one.
  rcases Nat.lt_or_ge below k with hlt | hge
  · have hk' := hmono _ _ hlt
    rw [hnext] at hk'
    rw [distance_of_ge (c := k) (by omega)]
    rcases hfound with ⟨rfl, hprefer⟩ | ⟨rfl, _⟩
    · have hhalf := hprefer (habove hlt)
      rw [distance_of_le (by omega)]
      omega
    · rw [distance_of_ge (by omega)]
      refine ⟨by omega, fun heq => ?_⟩
      have hsame : k * Nat.pow 10 t = (below + 1) * Nat.pow 10 t := by omega
      exact (Nat.eq_of_mul_eq_mul_right hpos hsame).le
  · have hk' := hmono _ _ hge
    rw [distance_of_le (c := k) (by omega)]
    rcases hfound with ⟨rfl, _⟩ | ⟨rfl, hprefer⟩
    · rw [distance_of_le (by omega)]
      omega
    · have hhalf := hprefer (hbelow hge)
      rw [distance_of_ge (by omega), hnext]
      omega

theorem nearestOnGrid_finest (b : Nat) : NearestOnGrid b 0 (units b) := by
  intro k _
  have hone (c : Nat) : c * Nat.pow 10 0 = c := Nat.mul_one c
  unfold distance
  rw [hone, hone, sub_self, abs_zero]
  refine ⟨abs_nonneg _, fun heq => ?_⟩
  have hzero := abs_eq_zero.mp heq.symm
  omega

/-- The search ends on the finest grid or where something is found, and on the grids before
that one nothing is. -/
theorem firstFrom_cases (find? : Nat → Option Nat) (finest t : Nat) :
    (firstFrom find? finest t = (0, finest) ∨
        find? (firstFrom find? finest t).1 = some (firstFrom find? finest t).2) ∧
      ∀ s, (firstFrom find? finest t).1 < s → s ≤ t → find? s = none := by
  induction t with
  | zero => exact ⟨.inl rfl, fun s hlt hle => absurd hle (Nat.not_le_of_lt hlt)⟩
  | succ t ih =>
    unfold firstFrom
    split
    · next c hc => exact ⟨.inr hc, fun s hlt hle => absurd hle (Nat.not_le_of_lt hlt)⟩
    · next hnone =>
      refine ⟨ih.1, fun s hlt hle => ?_⟩
      rcases Nat.lt_or_eq_of_le hle with hlt' | rfl
      · exact ih.2 s hlt (Nat.le_of_lt_succ hlt')
      · exact hnone

theorem pow_le_pow_of_power {a b p q m r : Nat} (hpower : a ^ p ≤ b ^ q) (hp : p ≠ 0) (hb : 0 < b)
    (hr : q * m ≤ r * p) : a ^ m ≤ b ^ r := by
  apply (Nat.pow_le_pow_iff_left hp).mp
  calc (a ^ m) ^ p = (a ^ p) ^ m := Nat.pow_right_comm a m p
    _ ≤ (b ^ q) ^ m := Nat.pow_le_pow_left hpower m
    _ = b ^ (q * m) := (Nat.pow_mul b q m).symm
    _ ≤ b ^ (r * p) := Nat.pow_le_pow_right hb hr
    _ = (b ^ r) ^ p := Nat.pow_mul b r p

theorem two_pow_le_ten_pow (m : Nat) : 2 ^ m ≤ 10 ^ (m * 302 / 1000 + 1) := by
  have hpower : 2 ^ 1000 ≤ 10 ^ 302 := by decide +kernel
  exact pow_le_pow_of_power hpower (by decide) (by decide) (by omega)

theorem units_lt_outerGrid (b : Nat) : units b < Nat.pow 10 (outerGrid b) :=
  Nat.lt_of_lt_of_le Nat.lt_log2_self (two_pow_le_ten_pow (Nat.log2 (units b) + 1))

/-- The number of units in the smallest positive double. -/
def unitsInStep : Nat := Nat.pow 5 1074

theorem units_eq_steps (b : Nat) : units b = steps b * unitsInStep := by
  unfold units steps significand scale unitsInStep
  dsimp only

/-- The double after a positive one is at most twice as large. -/
theorem units_succ_le {b : Nat} (hb : 0 < b) : units (b + 1) ≤ 2 * units b := by
  have hsteps : steps (b + 1) = (significand b + 1) * Nat.pow 2 (scale b) := by
    have hsucc : b + 1 = scale b * Nat.pow 2 52 + (significand b + 1) := by
      rw [← Nat.add_assoc, scale_add_significand]
    rw [hsucc]
    apply steps_of_parts
    · rcases Nat.eq_zero_or_pos (scale b) with hzero | hpos
      · exact .inl hzero
      · exact .inr (Nat.le_succ_of_le (le_significand_of_scale hpos))
    · exact significand_lt b
  have hpositive : 0 < significand b := by
    have hlt : steps 0 < steps b := steps_lt_steps hb
    exact Nat.pos_of_mul_pos_right (Nat.zero_lt_of_lt hlt)
  have hdouble : significand b + 1 ≤ 2 * significand b := by omega
  rw [units_eq_steps, units_eq_steps, hsteps, ← Nat.mul_assoc]
  apply Nat.mul_le_mul_right
  rw [steps, ← Nat.mul_assoc]
  exact Nat.mul_le_mul_right _ hdouble

section
variable {b : Nat} (hpos : 0 < b) (hfinite : b < infinityBits)
include hpos hfinite

/-- The points of a grid coarser than the one the search starts with are zero or too large. -/
theorem readsBack_beyond {t : Nat} (ht : outerGrid b < t) (k : Nat) : readsBack b t k = false := by
  rw [Bool.eq_false_iff, ne_eq, readsBack_iff]
  intro hk
  rcases Nat.eq_zero_or_pos k with rfl | hkpos
  · rw [Nat.zero_mul, nearestBits_zero] at hk
    exact hpos.ne hk
  · have hlarge : units (b + 1) ≤ k * Nat.pow 10 t := by
      have hten : 2 * Nat.pow 10 (outerGrid b) ≤ Nat.pow 10 (outerGrid b + 1) := by
        have hsucc : Nat.pow 10 (outerGrid b + 1) = 10 * Nat.pow 10 (outerGrid b) := Nat.pow_succ'
        omega
      calc units (b + 1) ≤ 2 * units b := units_succ_le hpos
        _ ≤ 2 * Nat.pow 10 (outerGrid b) := Nat.mul_le_mul_left 2 (units_lt_outerGrid b).le
        _ ≤ Nat.pow 10 (outerGrid b + 1) := hten
        _ ≤ Nat.pow 10 t := Nat.pow_le_pow_right (by decide) ht
        _ ≤ k * Nat.pow 10 t := Nat.le_mul_of_pos_left _ hkpos
    have hnext := nearestBits_mono unitsInOne_pos unitsInOne_pos
      (Nat.mul_le_mul_right unitsInOne hlarge)
    rw [nearestBits_unitsInOne hfinite, hk] at hnext
    exact Nat.not_succ_le_self b hnext

/-- No grid coarser than the one where the search ends has a point that reads back. -/
theorem readsBack_of_coarsest_lt {t : Nat} (ht : (coarsest b (outerGrid b)).1 < t) (k : Nat) :
    readsBack b t k = false := by
  rcases Nat.lt_or_ge (outerGrid b) t with hbeyond | hle
  · exact readsBack_beyond hpos hfinite hbeyond k
  · have hnone := (firstFrom_cases (neighbour? b) (units b) (outerGrid b)).2 t ht hle
    exact readsBack_of_neighbour?_eq_none hfinite.le hnone k

end

theorem nearestOnGrid_coarsest {b : Nat} (hb : b ≤ infinityBits) (t : Nat) :
    NearestOnGrid b (coarsest b t).1 (coarsest b t).2 := by
  unfold coarsest
  rcases (firstFrom_cases (neighbour? b) (units b) t).1 with hfinest | hfound
  · rw [hfinest]
    exact nearestOnGrid_finest b
  · exact nearestOnGrid_of_neighbour? hb hfound

/-- The decimal `c * 10 ^ t / 10 ^ 1074` is read as the double with bits `b`. No decimal with
fewer digits is, wherever its point stands, and no point of the same grid that is read so is
nearer to the double. -/
structure ShortestDecimal (b t c : Nat) : Prop where
  reads : readsBack b t c = true
  fewest : ∀ n s places, nearestBits (n * Nat.pow 10 s) (Nat.pow 10 places) = b →
    (Nat.toDigits 10 c).length ≤ (Nat.toDigits 10 n).length
  nearest : NearestOnGrid b t c

theorem lt_ten_pow_length (n : Nat) : n < 10 ^ (Nat.toDigits 10 n).length :=
  (Nat.length_toDigits_le_iff (by decide) (List.length_pos_of_ne_nil Nat.toDigits_ne_nil)).mp le_rfl

theorem ten_pow_mul_ten_pow (s t : Nat) : Nat.pow 10 s * Nat.pow 10 t = Nat.pow 10 (s + t) :=
  (Nat.pow_add 10 s t).symm

theorem ten_pow_mul_unitsInOne (s : Nat) : Nat.pow 10 s * unitsInOne = Nat.pow 10 (s + 1074) := by
  -- The exponent is made a variable, so that no power is evaluated.
  obtain ⟨k, hk, hone⟩ : ∃ k, k = 1074 ∧ unitsInOne = Nat.pow 10 k := by
    unfold unitsInOne
    exact ⟨1074, rfl, rfl⟩
  rw [hone, ten_pow_mul_ten_pow, hk]

/-- Where no coarser grid has a point that reads back, no decimal has fewer digits. -/
theorem length_toDigits_le_of_reads {b t c : Nat} (hc : readsBack b t c = true)
    (hcoarser : ∀ s, t < s → ∀ k, readsBack b s k = false) {n s places : Nat}
    (hn : nearestBits (n * Nat.pow 10 s) (Nat.pow 10 places) = b) :
    (Nat.toDigits 10 c).length ≤ (Nat.toDigits 10 n).length := by
  have hlength : 0 < (Nat.toDigits 10 n).length := List.length_pos_of_ne_nil Nat.toDigits_ne_nil
  have hnlt := lt_ten_pow_length n
  rw [Nat.length_toDigits_le_iff (by decide) hlength]
  generalize (Nat.toDigits 10 n).length = digits at hlength hnlt ⊢
  by_contra hge
  have hple := pow_pos_of_pos 10 places (Nat.succ_pos 9)
  rcases Nat.lt_or_ge (places + t) (s + 1074) with hlt | hle
  · have hgrid : readsBack b (s + 1074 - places) n = true := by
      rw [readsBack_iff, ← hn]
      apply nearestBits_eq_of_mul_eq unitsInOne_pos hple
      rw [Nat.mul_assoc, Nat.mul_assoc, ten_pow_mul_unitsInOne, ten_pow_mul_ten_pow,
        Nat.sub_add_cancel (by omega)]
    rw [hcoarser _ (by omega) n] at hgrid
    cases hgrid
  · -- The power of ten with one digit more than `n` lies between the two decimals.
    have hlow :
        n * Nat.pow 10 s * unitsInOne ≤ 1 * Nat.pow 10 (digits + t) * Nat.pow 10 places := by
      rw [Nat.mul_assoc, Nat.one_mul, ten_pow_mul_unitsInOne, ten_pow_mul_ten_pow, Nat.add_assoc,
        ← ten_pow_mul_ten_pow digits]
      exact Nat.mul_le_mul hnlt.le (Nat.pow_le_pow_right (by decide) (by omega))
    have hhigh : 1 * Nat.pow 10 (digits + t) * unitsInOne ≤ c * Nat.pow 10 t * unitsInOne := by
      rw [Nat.one_mul, ← ten_pow_mul_ten_pow]
      exact Nat.mul_le_mul_right _ (Nat.mul_le_mul_right _ (Nat.le_of_not_lt hge))
    have hpower : readsBack b (digits + t) 1 = true := by
      rw [readsBack_iff] at hc ⊢
      exact nearestBits_of_between hple unitsInOne_pos unitsInOne_pos hlow hhigh hn hc
    rw [hcoarser _ (Nat.lt_add_of_pos_left hlength) 1] at hpower
    cases hpower

theorem distance_zero (t c : Nat) : distance 0 t c = (c * Nat.pow 10 t : Nat) := by
  have hunits : units 0 = 0 := by
    rw [units_eq_steps, show steps 0 = 0 from rfl, Nat.zero_mul]
  rw [distance_of_ge (by omega), hunits, Int.natCast_zero, Int.sub_zero]

theorem shortestDecimal_zero (t : Nat) : ShortestDecimal 0 t 0 where
  reads := by
    rw [readsBack_iff, Nat.zero_mul]
    exact nearestBits_zero _
  fewest := fun _ _ _ _ => List.length_pos_of_ne_nil Nat.toDigits_ne_nil
  nearest := by
    intro k _
    have hpos : 0 < Nat.pow 10 t := pow_pos_of_pos 10 t (Nat.succ_pos 9)
    rw [distance_zero, distance_zero, Nat.zero_mul]
    refine ⟨Int.natCast_nonneg _, fun heq => ?_⟩
    have hzero : k * Nat.pow 10 t = 0 := (Int.ofNat_inj.mp heq).symm
    exact ((Nat.mul_eq_zero.mp hzero).resolve_right hpos.ne').le

theorem positional_zero {t : Nat} (h : 1074 ≤ t) : positional t 0 = ['0'] := by
  unfold positional
  rw [if_pos h, Nat.zero_mul]
  rfl

theorem shortestDecimal_coarsest {b : Nat} (hpos : 0 < b) (hfinite : b < infinityBits) :
    ShortestDecimal b (coarsest b (outerGrid b)).1 (coarsest b (outerGrid b)).2 where
  reads := readsBack_coarsest hfinite.le _
  fewest := fun _ _ _ =>
    length_toDigits_le_of_reads (readsBack_coarsest hfinite.le _)
      fun _ => readsBack_of_coarsest_lt hpos hfinite
  nearest := nearestOnGrid_coarsest hfinite.le _

/-- A finite double is written as one of its shortest decimals, without an exponent. -/
theorem exists_shortestDecimal {b : Nat} (h : b < infinityBits) :
    ∃ t c, shortest b = positional t c ∧ ShortestDecimal b t c := by
  unfold shortest
  split
  · next hzero =>
    subst hzero
    exact ⟨1074, 0, (positional_zero le_rfl).symm, shortestDecimal_zero 1074⟩
  · next hne =>
    have hfound := shortestDecimal_coarsest (Nat.pos_of_ne_zero hne) h
    generalize coarsest b (outerGrid b) = found at hfound ⊢
    obtain ⟨t, c⟩ := found
    exact ⟨t, c, rfl, hfound⟩

end Scriptwright.Binary64
