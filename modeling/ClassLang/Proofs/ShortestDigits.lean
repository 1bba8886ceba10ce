import ClassLang.Number.FloatText
import ClassLang.Proofs.NearestNumber
import Mathlib.Algebra.Order.Floor.Semifield

/-!
# The digits of a floating-point number

The digits by which a number is written are searched on grids of one digit, of two, up to seventeen.
`shortestDecimal_spec` says that they always round to the number, because the step of the last grid
is less than the width of the interval around it (`rounds_seventeen`). `positiveText_cases` puts the
point among them: numbers of the usual sizes are written in positions, with a digit on each side of
the point, all others with an exponent.
-/

set_option autoImplicit false

namespace ClassLang.Number

/-! ## Counting digits -/

theorem length_toDigits_bounds {n : ℕ} (pos : 0 < n) :
    10 ^ ((Nat.toDigits 10 n).length - 1) ≤ n ∧ n < 10 ^ (Nat.toDigits 10 n).length := by
  have hlength : 0 < (Nat.toDigits 10 n).length := Nat.length_toDigits_pos
  refine ⟨?_, (Nat.length_toDigits_le_iff (by decide) hlength).1 le_rfl⟩
  rcases Nat.eq_zero_or_pos ((Nat.toDigits 10 n).length - 1) with hzero | hmore
  · rwa [hzero]
  · by_contra hlt
    have := (Nat.length_toDigits_le_iff (by decide) hmore).2 (Nat.lt_of_not_le hlt)
    omega

/-- The number that digits with an exponent stand for. -/
def Decimal.value (d : Decimal) : ℚ := d.digits * 10 ^ d.exponent

/-- Digits with an exponent begin at the place of the greatest power of ten below them. -/
theorem length_toDigits_add {d : Decimal} (pos : 0 < d.digits) :
    (Nat.toDigits 10 d.digits).length + d.exponent = Int.log 10 d.value + 1 := by
  obtain ⟨hlow, hhigh⟩ := length_toDigits_bounds pos
  obtain ⟨k, hk⟩ : ∃ k, (Nat.toDigits 10 d.digits).length = k + 1 :=
    ⟨_, (Nat.succ_pred_eq_of_pos Nat.length_toDigits_pos).symm⟩
  rw [hk, Nat.add_sub_cancel] at hlow
  rw [hk] at hhigh
  have hten : (0 : ℚ) < 10 ^ d.exponent := zpow_pos (by norm_num) _
  have hvalue : 0 < d.value := mul_pos (by exact_mod_cast pos) hten
  have hlog : Int.log 10 d.value = k + d.exponent := by
    refine log_eq (by decide) hvalue ?_ ?_
    · rw [Decimal.value, Nat.cast_ofNat, zpow_add₀ (by norm_num), zpow_natCast]
      exact mul_le_mul_of_nonneg_right (by exact_mod_cast hlow) hten.le
    · rw [Decimal.value, Nat.cast_ofNat, add_right_comm, zpow_add₀ (by norm_num)]
      exact mul_lt_mul_of_pos_right (by exact_mod_cast hhigh) hten
  rw [hlog, hk]
  push_cast
  ring

/-- The whole part of a fraction is less than one below it. -/
theorem floor_bounds (num : ℕ) {den : ℕ} :
    ((num / den : ℕ) : ℚ) ≤ num / den ∧ (num : ℚ) / den < (num / den : ℕ) + 1 := by
  rw [← Nat.floor_div_eq_div (K := ℚ) num den]
  exact ⟨Nat.floor_le (by positivity), Nat.lt_floor_add_one _⟩

/-- Moved `guardPlaces` to the left, the fraction has as many digits before the point as its size
asks for. -/
theorem decimalMagnitude_eq {v : Fraction} (hv : 1 ≤ v.value * 10 ^ guardPlaces) :
    decimalMagnitude v = Int.log 10 v.value + 1 := by
  have hten : (0 : ℚ) < 10 ^ guardPlaces := pow_pos (by norm_num) _
  have hpos : 0 < v.value := by nlinarith
  obtain ⟨hfloor, hceil⟩ := @floor_bounds (v.num * 10 ^ guardPlaces) v.den
  have hscaled : ((v.num * 10 ^ guardPlaces : ℕ) : ℚ) / v.den = v.value * 10 ^ guardPlaces := by
    rw [Fraction.value]
    push_cast
    ring
  rw [hscaled] at hfloor hceil
  unfold decimalMagnitude
  rw [Nat.pow_eq]
  generalize v.num * 10 ^ guardPlaces / v.den = whole at *
  have hwhole : 0 < whole := by
    rw [Nat.pos_iff_ne_zero]
    rintro rfl
    push_cast at hceil
    linarith
  obtain ⟨hlow, hhigh⟩ := length_toDigits_bounds hwhole
  obtain ⟨k, hk⟩ : ∃ k, (Nat.toDigits 10 whole).length = k + 1 :=
    ⟨_, (Nat.succ_pred_eq_of_pos Nat.length_toDigits_pos).symm⟩
  rw [hk, Nat.add_sub_cancel] at hlow
  rw [hk] at hhigh
  have hlow' : (10 : ℚ) ^ k ≤ whole := by exact_mod_cast hlow
  have hhigh' : (whole : ℚ) + 1 ≤ 10 ^ (k + 1) := by exact_mod_cast hhigh
  have hlog : Int.log 10 v.value = k - guardPlaces := by
    refine log_eq (by decide) hpos ?_ ?_
    · rw [Nat.cast_ofNat, zpow_sub₀ (by norm_num), zpow_natCast, zpow_natCast, div_le_iff₀ hten]
      exact hlow'.trans hfloor
    · rw [Nat.cast_ofNat, sub_add_eq_add_sub, zpow_sub₀ (by norm_num), zpow_natCast,
        lt_div_iff₀ hten]
      exact hceil.trans_le hhigh'
  rw [hlog, hk]
  push_cast
  ring

/-! ## Points of a grid -/

theorem floorDiv_bounds {a b : Fraction} (hb : 0 < b.value) :
    (a.floorDiv b : ℚ) * b.value ≤ a.value ∧ a.value < (a.floorDiv b + 1) * b.value := by
  obtain ⟨hfloor, hceil⟩ := @floor_bounds (a.num * b.den) (a.den * b.num)
  have hquotient : ((a.num * b.den : ℕ) : ℚ) / (a.den * b.num : ℕ) = a.value / b.value := by
    rw [Fraction.value, Fraction.value]
    push_cast
    rw [div_div_div_eq]
  rw [hquotient] at hfloor hceil
  rw [le_div_iff₀ hb] at hfloor
  rw [div_lt_iff₀ hb] at hceil
  exact ⟨hfloor, hceil⟩

variable {interval : RoundingInterval} {v : Fraction} {exponent : Int}

/-- A point of the grid that is chosen is one of the two neighbours and lies in the interval. -/
theorem pointOnGrid?_eq_some {d : Decimal} (h : pointOnGrid? interval v exponent = some d) :
    d.exponent = exponent ∧ (d.digits = v.floorDiv (.ofDecimal 1 exponent) ∨
        d.digits = v.floorDiv (.ofDecimal 1 exponent) + 1) ∧
      interval.contains (.ofDecimal d.digits exponent) = true := by
  unfold pointOnGrid? at h
  dsimp only at h
  split at h
  · cases h
  · next hlower _ =>
    cases h
    exact ⟨rfl, .inl rfl, hlower⟩
  · next _ hupper =>
    cases h
    exact ⟨rfl, .inr rfl, hupper⟩
  · next hlower hupper =>
    cases h
    refine ⟨rfl, ?_, ?_⟩
    · split
      · exact .inr rfl
      · exact .inl rfl
    · dsimp only
      split
      · exact hupper
      · exact hlower

theorem pointOnGrid?_eq_none (h : pointOnGrid? interval v exponent = none) :
    interval.contains (.ofDecimal (v.floorDiv (.ofDecimal 1 exponent)) exponent) = false ∧
      interval.contains (.ofDecimal (v.floorDiv (.ofDecimal 1 exponent) + 1) exponent) = false := by
  unfold pointOnGrid? at h
  dsimp only at h
  split at h
  · next hlower hupper => exact ⟨hlower, hupper⟩
  all_goals cases h


end ClassLang.Number

namespace ClassLang

open List Binary64

namespace Binary64

variable {x : Binary64}

theorem size_pos (pos : 0 < x.magnitude) : 0 < x.size :=
  mul_pos (by exact_mod_cast x.mantissa_pos pos) (zpow_pos (by norm_num) _)

theorem rounds_of_lt {q : ℚ} (low : (x.mantissa - x.reach) * 2 ^ x.exponent < q)
    (high : q < (x.mantissa + 1 / 2) * 2 ^ x.exponent) : x.Rounds q :=
  ⟨low.le, high.le, fun _ => ⟨low, high⟩⟩

theorem Rounds.pos (pos : 0 < x.magnitude) {q : ℚ} (h : x.Rounds q) : 0 < q := by
  have hm : (1 : ℚ) ≤ x.mantissa := by exact_mod_cast x.mantissa_pos pos
  have hreach := x.reach_le
  have hlow : 0 < (x.mantissa - x.reach) * (2 : ℚ) ^ x.exponent :=
    mul_pos (by linarith) (zpow_pos (by norm_num) _)
  exact hlow.trans_le h.low

/-- Even the smallest number shows a digit before the guard places end. -/
theorem one_le_size_mul (pos : 0 < x.magnitude) : 1 ≤ x.size * 10 ^ Number.guardPlaces := by
  have hm : (1 : ℚ) ≤ x.mantissa := by exact_mod_cast x.mantissa_pos pos
  have hbit : ((2 : ℚ) ^ 1074)⁻¹ ≤ 2 ^ x.exponent := by
    rw [← zpow_natCast, ← zpow_neg]
    exact zpow_le_zpow_right₀ (by norm_num) x.exponent_ge
  have hguard : (2 : ℚ) ^ 1074 ≤ 10 ^ Number.guardPlaces := by
    exact_mod_cast (by decide +kernel : 2 ^ 1074 ≤ 10 ^ Number.guardPlaces)
  have hpow : (0 : ℚ) < 2 ^ 1074 := pow_pos (by norm_num) _
  calc (1 : ℚ) = ((2 : ℚ) ^ 1074)⁻¹ * 2 ^ 1074 := (inv_mul_cancel₀ hpow.ne').symm
    _ ≤ x.size * 10 ^ Number.guardPlaces := by
      refine mul_le_mul ?_ hguard hpow.le (size_pos pos).le
      exact hbit.trans (le_mul_of_one_le_left (zpow_pos (by norm_num) _).le hm)

/-- Seventeen digits tell a number from its neighbours: one of the two decimals of seventeen digits
around it rounds to it. -/
theorem rounds_seventeen {s : ℚ} {down : ℕ} (hs : 0 < s) (hsize : s * 10 ^ 16 ≤ x.size)
    (low : down * s ≤ x.size) (high : x.size < (down + 1) * s) :
    x.Rounds (down * s) ∨ x.Rounds ((down + 1) * s) := by
  have hbit : (0 : ℚ) < 2 ^ x.exponent := zpow_pos (by norm_num) _
  have hlt : (x.mantissa : ℚ) < 2 ^ 53 := by exact_mod_cast x.mantissa_lt
  -- half a step of the grid is less than the way to the end of the interval
  have hstep : s < 2 * x.reach * 2 ^ x.exponent := by
    have hreach : (x.mantissa : ℚ) < 2 * x.reach * 10 ^ 16 := by
      unfold reach
      split
      · next h =>
        rw [h]
        norm_num
      · linarith
    rw [size] at hsize
    nlinarith
  have hreach := x.reach_le
  unfold size at low high
  rcases le_or_gt (x.size - down * s) (s / 2) with hnear | hnear
  · left
    unfold size at hnear
    refine rounds_of_lt ?_ ?_
    · linarith
    · linarith
  · right
    unfold size at hnear
    refine rounds_of_lt ?_ ?_
    · nlinarith [x.reach_pos]
    · nlinarith

end Binary64


namespace Number

variable {x : Binary64}

theorem value_ofBinary_mantissa : (Fraction.ofBinary x.mantissa x.exponent).value = x.size :=
  Fraction.value_ofBinary _ _

/-- The multiples of a power of ten around a number. -/
theorem floorDiv_grid (x : Binary64) (k : ℤ) :
    ((Fraction.ofBinary x.mantissa x.exponent).floorDiv (.ofDecimal 1 k) : ℚ) * 10 ^ k ≤ x.size ∧
      x.size <
        ((Fraction.ofBinary x.mantissa x.exponent).floorDiv (.ofDecimal 1 k) + 1 : ℕ) * 10 ^ k := by
  have hunit : (Fraction.ofDecimal 1 k).value = 10 ^ k := by
    rw [Fraction.value_ofDecimal, Nat.cast_one, one_mul]
  have hstep : 0 < (Fraction.ofDecimal 1 k).value := hunit ▸ zpow_pos (by norm_num) _
  have hbounds := floorDiv_bounds (a := .ofBinary x.mantissa x.exponent) hstep
  rw [hunit, value_ofBinary_mantissa] at hbounds
  push_cast
  exact hbounds

/-- What a point of the grid of `n + 1` digits is like: it rounds to the number and does not leave
the powers of ten around it. -/
theorem pointOnGrid?_spec (pos : 0 < x.magnitude) {n : ℕ} {d : Decimal}
    (h : pointOnGrid? (roundingInterval x) (.ofBinary x.mantissa x.exponent)
      (Int.log 10 x.size - n) = some d) :
    x.Rounds d.value ∧ 10 ^ Int.log 10 x.size ≤ d.value ∧ d.value ≤ 10 ^ (Int.log 10 x.size + 1) := by
  obtain ⟨hexponent, hdigits, hcontains⟩ := pointOnGrid?_eq_some h
  rw [contains_iff pos (Fraction.den_ofDecimal_pos _ _), Fraction.value_ofDecimal,
    ← hexponent] at hcontains
  refine ⟨hcontains, ?_⟩
  have hsize := size_pos pos
  have hlow := Int.zpow_log_le_self (b := 10) (by decide) hsize
  have hhigh := Int.lt_zpow_succ_log_self (b := 10) (by decide) x.size
  rw [Nat.cast_ofNat] at hlow hhigh
  have hstep : (0 : ℚ) < 10 ^ (Int.log 10 x.size - n) := zpow_pos (by norm_num) _
  obtain ⟨hfloor, hceil⟩ := floorDiv_grid x (Int.log 10 x.size - n)
  rw [Decimal.value, hexponent]
  generalize (Fraction.ofBinary x.mantissa x.exponent).floorDiv _ = down at *
  generalize hs : (10 : ℚ) ^ (Int.log 10 x.size - n) = s at *
  -- both powers of ten are points of the grid
  have hbelow : (10 : ℚ) ^ Int.log 10 x.size = (10 ^ n : ℕ) * s := by
    rw [← hs, zpow_sub₀ (by norm_num), zpow_natCast]
    push_cast
    field_simp
  have habove : (10 : ℚ) ^ (Int.log 10 x.size + 1) = (10 ^ (n + 1) : ℕ) * s := by
    rw [zpow_add₀ (by norm_num), hbelow]
    push_cast
    ring
  rw [hbelow] at hlow ⊢
  rw [habove] at hhigh ⊢
  have hdown : 10 ^ n ≤ down := by
    have : ((10 ^ n : ℕ) : ℚ) < (down + 1 : ℕ) :=
      lt_of_mul_lt_mul_right (hlow.trans_lt hceil) hstep.le
    exact Nat.lt_succ_iff.1 (by exact_mod_cast this)
  have hup : down + 1 ≤ 10 ^ (n + 1) := by
    have : (down : ℚ) < (10 ^ (n + 1) : ℕ) :=
      lt_of_mul_lt_mul_right (hfloor.trans_lt hhigh) hstep.le
    exact_mod_cast this
  constructor
  · refine mul_le_mul_of_nonneg_right ?_ hstep.le
    exact_mod_cast (by omega : 10 ^ n ≤ d.digits)
  · refine mul_le_mul_of_nonneg_right ?_ hstep.le
    exact_mod_cast (by omega : d.digits ≤ 10 ^ (n + 1))

/-- **Shortest digits.** They round to the number that they were chosen for, and do not leave the
powers of ten around it. -/
theorem shortestDecimal_spec (pos : 0 < x.magnitude) :
    x.Rounds (shortestDecimal x).value ∧ 10 ^ Int.log 10 x.size ≤ (shortestDecimal x).value ∧
      (shortestDecimal x).value ≤ 10 ^ (Int.log 10 x.size + 1) := by
  have hmagnitude : decimalMagnitude (.ofBinary x.mantissa x.exponent) = Int.log 10 x.size + 1 := by
    have hguard := one_le_size_mul pos
    rw [← value_ofBinary_mantissa] at hguard ⊢
    exact decimalMagnitude_eq hguard
  have hexponent : ∀ n : ℕ, Int.log 10 x.size + 1 - (n + 1 : ℕ) = Int.log 10 x.size - n := by
    intro n
    push_cast
    ring
  unfold shortestDecimal
  dsimp only
  rw [hmagnitude]
  simp only [hexponent]
  cases hfound : (range 17).findSome? fun n =>
      pointOnGrid? (roundingInterval x) (.ofBinary x.mantissa x.exponent)
        (Int.log 10 x.size - (n : ℕ)) with
  | some d =>
    obtain ⟨n, -, hpoint⟩ := exists_of_findSome?_eq_some hfound
    exact pointOnGrid?_spec pos hpoint
  | none =>
    -- seventeen digits would have been enough
    exfalso
    have hlast := findSome?_eq_none_iff.1 hfound 16 (by decide)
    obtain ⟨hdown, hup⟩ := pointOnGrid?_eq_none hlast
    obtain ⟨hfloor, hceil⟩ := floorDiv_grid x (Int.log 10 x.size - (16 : ℕ))
    have hstep : (10 : ℚ) ^ (Int.log 10 x.size - (16 : ℕ)) * 10 ^ 16 ≤ x.size := by
      have hlow := Int.zpow_log_le_self (b := 10) (by decide) (size_pos pos)
      rw [Nat.cast_ofNat] at hlow
      rwa [zpow_sub₀ (by norm_num), zpow_natCast, div_mul_cancel₀ _ (by norm_num)]
    rw [Bool.eq_false_iff, Ne, contains_iff pos (Fraction.den_ofDecimal_pos _ _),
      Fraction.value_ofDecimal] at hdown hup
    push_cast at hup hceil
    rcases rounds_seventeen (zpow_pos (by norm_num) _) hstep hfloor hceil with h | h
    · exact hdown h
    · exact hup h

/-! ## Where the point stands -/

/-- A power of ten is at most the decimal of a number exactly if it is at most the number, provided
that it does not round up to a number below it. -/
theorem power_le_shortestDecimal (pos : 0 < x.magnitude) {j : ℤ}
    (exact : x.Rounds (10 ^ j) → 10 ^ j ≤ x.size) :
    10 ^ j ≤ (shortestDecimal x).value ↔ 10 ^ j ≤ x.size := by
  obtain ⟨hrounds, hlow, hhigh⟩ := shortestDecimal_spec pos
  have hlog := Int.zpow_le_iff_le_log (b := 10) (by decide) (size_pos pos) (x := j)
  rw [Nat.cast_ofNat] at hlog
  constructor
  · intro hle
    by_contra hlt
    have hpow : (10 : ℚ) ^ (Int.log 10 x.size + 1) ≤ 10 ^ j :=
      zpow_le_zpow_right₀ (by norm_num) (by
        rw [hlog] at hlt
        omega)
    have heq : (shortestDecimal x).value = 10 ^ j := le_antisymm (hhigh.trans hpow) hle
    exact hlt (exact (heq ▸ hrounds))
  · intro hle
    refine le_trans ?_ hlow
    exact zpow_le_zpow_right₀ (by norm_num) (hlog.1 hle)

/-- The bits of the number that a power of ten rounds to. -/
theorem magnitude_of_rounds_power (pos : 0 < x.magnitude)
    (finite : x.magnitude < infinityBits) {j : ℤ} (h : x.Rounds (10 ^ j)) :
    x.magnitude = nearestMagnitude (.ofDecimal 1 j) := by
  refine (nearestMagnitude_eq pos finite ?_).symm
  rwa [Fraction.value_ofDecimal, Nat.cast_one, one_mul]

/-- Numbers from `0.0001` up to but not including `10 ^ 16` are those whose digits are written with
the point in its place. -/
theorem inStyle_iff (pos : 0 < x.magnitude) (finite : x.magnitude < infinityBits) :
    (floatStyle.positionalFrom ≤ Int.log 10 (shortestDecimal x).value + 1 ∧
      Int.log 10 (shortestDecimal x).value + 1 ≤ floatStyle.positionalTo) ↔
      1 / 10 ^ 4 ≤ x.size ∧ x.size < 10 ^ 16 := by
  have hvalue : 0 < (shortestDecimal x).value := (shortestDecimal_spec pos).1.pos pos
  have hlow : (10 : ℚ) ^ (-4 : ℤ) ≤ (shortestDecimal x).value ↔ (10 : ℚ) ^ (-4 : ℤ) ≤ x.size := by
    refine power_le_shortestDecimal pos ?_
    intro h
    have hbits : nearestMagnitude (.ofDecimal 1 (-4)) = 0x3F1A36E2EB1C432D := by decide +kernel
    have hmagnitude := magnitude_of_rounds_power pos finite h
    rw [hbits] at hmagnitude
    simp only [size, mantissa, exponent, hmagnitude]
    norm_num
  have hhigh : (10 : ℚ) ^ (16 : ℤ) ≤ (shortestDecimal x).value ↔ (10 : ℚ) ^ (16 : ℤ) ≤ x.size := by
    refine power_le_shortestDecimal pos ?_
    intro h
    have hbits : nearestMagnitude (.ofDecimal 1 16) = 0x4341C37937E08000 := by decide +kernel
    have hmagnitude := magnitude_of_rounds_power pos finite h
    rw [hbits] at hmagnitude
    simp only [size, mantissa, exponent, hmagnitude]
    norm_num
  have hlow' := Int.zpow_le_iff_le_log (b := 10) (by decide) hvalue (x := -4)
  have hhigh' := Int.zpow_le_iff_le_log (b := 10) (by decide) hvalue (x := 16)
  rw [Nat.cast_ofNat] at hlow' hhigh'
  rw [hlow'] at hlow
  rw [hhigh'] at hhigh
  have hfrom : floatStyle.positionalFrom = -3 := rfl
  have hto : floatStyle.positionalTo = 16 := rfl
  have htenth : (1 : ℚ) / 10 ^ 4 = 10 ^ (-4 : ℤ) := by norm_num
  have hsixteen : (10 : ℚ) ^ 16 = 10 ^ (16 : ℤ) := by norm_num
  rw [hfrom, hto, htenth, hsixteen, ← hlow, ← not_le, ← hhigh]
  omega

/-! ## The written digits -/

/-- Digits, of which there are some. -/
def IsDigits (w : List Char) : Prop := w ≠ [] ∧ ∀ d ∈ w, d.isDigit = true

/-- The number that digits with a point among them stand for. -/
def pointValue (whole fraction : List Char) : ℚ :=
  Nat.ofDigitChars 10 (whole ++ fraction) 0 * 10 ^ (-fraction.length : ℤ)

theorem isDigits_toDigits (n : ℕ) : IsDigits (Nat.toDigits 10 n) :=
  ⟨Nat.toDigits_ne_nil, fun _ hd => Nat.isDigit_of_mem_toDigits (by decide) (by decide) hd⟩

theorem toDigits_eq_significantDigits (n : ℕ) :
    ∃ zeros, Nat.toDigits 10 n = significantDigits n ++ replicate zeros '0' := by
  refine ⟨((Nat.toDigits 10 n).reverse.takeWhile (· = '0')).length, ?_⟩
  have hzeros : (Nat.toDigits 10 n).reverse.takeWhile (· = '0') =
      replicate ((Nat.toDigits 10 n).reverse.takeWhile (· = '0')).length '0' := by
    refine eq_replicate_of_mem ?_
    intro c hc
    simpa using all_eq_true.1 all_takeWhile c hc
  rw [significantDigits, ← reverse_replicate, ← hzeros, ← reverse_append,
    takeWhile_append_dropWhile, reverse_reverse]

/-- Without the zeros at its end a positive number has the same digits, and some are left. -/
theorem significantDigits_spec {n : ℕ} (pos : 0 < n) : ∃ zeros,
    (Nat.toDigits 10 n).length = (significantDigits n).length + zeros ∧
      n = 10 ^ zeros * Nat.ofDigitChars 10 (significantDigits n) 0 ∧
        IsDigits (significantDigits n) := by
  obtain ⟨zeros, hzeros⟩ := toDigits_eq_significantDigits n
  have hvalue : n = 10 ^ zeros * Nat.ofDigitChars 10 (significantDigits n) 0 := by
    conv_lhs => rw [← Nat.ofDigitChars_ten_toDigits (n := n), hzeros]
    rw [Nat.ofDigitChars_append, Nat.ofDigitChars_replicate_zero]
  refine ⟨zeros, ?_, hvalue, ?_, ?_⟩
  · rw [hzeros, length_append, length_replicate]
  · intro hnil
    rw [hnil, Nat.ofDigitChars_nil, Nat.mul_zero] at hvalue
    omega
  · intro d hd
    refine (isDigits_toDigits n).2 d ?_
    rw [hzeros]
    exact mem_append_left _ hd

/-- **The point in its place.** Digits stand before it and behind it, and with it they are worth
`0.w * 10 ^ magnitude`. -/
theorem positionalText_eq {w : List Char} (hw : IsDigits w) (magnitude : ℤ) :
    ∃ whole fraction, positionalText w magnitude = whole ++ '.' :: fraction ∧
      IsDigits whole ∧ IsDigits fraction ∧
      pointValue whole fraction = Nat.ofDigitChars 10 w 0 * 10 ^ (magnitude - w.length) := by
  have hzero : ∀ n, ∀ d ∈ replicate n '0', d.isDigit = true := by
    intro n d hd
    rw [eq_of_mem_replicate hd]
    rfl
  unfold positionalText pointValue
  split
  · next hsmall =>
    -- all digits stand behind the point, with zeros between them and it
    obtain ⟨zeros, hzeros⟩ := Int.eq_ofNat_of_zero_le (by omega : 0 ≤ -magnitude)
    obtain rfl : magnitude = -(zeros : ℤ) := by omega
    rw [neg_neg, Int.toNat_natCast]
    refine ⟨['0'], replicate zeros '0' ++ w, rfl, ⟨by simp, hzero 1⟩,
      ⟨by simp [hw.1], ?_⟩, ?_⟩
    · intro d hd
      exact (mem_append.1 hd).elim (hzero _ d) (hw.2 d)
    · have hvalue : Nat.ofDigitChars 10 (['0'] ++ (replicate zeros '0' ++ w)) 0 =
          Nat.ofDigitChars 10 w 0 := by
        rw [← append_assoc, ← replicate_one, replicate_append_replicate,
          Nat.ofDigitChars_append, Nat.ofDigitChars_replicate_zero, Nat.mul_zero]
      rw [hvalue, length_append, length_replicate]
      congr 2
      push_cast
      ring
  · next hlarge =>
    obtain ⟨places, rfl⟩ := Int.eq_ofNat_of_zero_le (by omega : 0 ≤ magnitude)
    dsimp only
    rw [Int.toNat_natCast]
    split
    · next hlong =>
      obtain ⟨zeros, rfl⟩ := Nat.exists_eq_add_of_le hlong
      rw [Nat.add_sub_cancel_left]
      refine ⟨w ++ replicate zeros '0', ['0'], by simp, ⟨by simp [hw.1], ?_⟩,
        ⟨by simp, hzero 1⟩, ?_⟩
      · intro d hd
        exact (mem_append.1 hd).elim (hw.2 d) (hzero _ d)
      · rw [append_assoc, ← replicate_one, replicate_append_replicate,
          Nat.ofDigitChars_append, Nat.ofDigitChars_replicate_zero, length_replicate]
        push_cast
        rw [pow_succ, add_sub_cancel_left, zpow_natCast]
        ring
    · next hlong =>
      have hplaces : 0 < places := by omega
      refine ⟨w.take places, w.drop places, by simp, ⟨?_, ?_⟩, ⟨?_, ?_⟩, ?_⟩
      · rw [Ne, take_eq_nil_iff, not_or]
        exact ⟨by omega, hw.1⟩
      · exact fun d hd => hw.2 d (mem_of_mem_take hd)
      · rw [Ne, drop_eq_nil_iff]
        omega
      · exact fun d hd => hw.2 d (mem_of_mem_drop hd)
      · rw [take_append_drop, length_drop, Nat.cast_sub (by omega), neg_sub]

/-- **Positions or an exponent.** From `0.0001` up to but not including `10 ^ 16` a number is written
with the point in its place, and what is written rounds to it; other numbers get an exponent. -/
theorem positiveText_cases (pos : 0 < x.magnitude) (finite : x.magnitude < infinityBits) :
    (1 / 10 ^ 4 ≤ x.size ∧ x.size < 10 ^ 16 ∧ ∃ whole fraction,
      positiveText floatStyle x = whole ++ '.' :: fraction ∧ IsDigits whole ∧ IsDigits fraction ∧
      pointValue whole fraction = (shortestDecimal x).value) ∨
    (¬ (1 / 10 ^ 4 ≤ x.size ∧ x.size < 10 ^ 16) ∧ ∃ w magnitude,
      positiveText floatStyle x = exponentText w magnitude ∧ IsDigits w) := by
  have hvalue : 0 < (shortestDecimal x).value := (shortestDecimal_spec pos).1.pos pos
  have hdigits : 0 < (shortestDecimal x).digits := by
    rw [Nat.pos_iff_ne_zero]
    intro hzero
    rw [Decimal.value, hzero, Nat.cast_zero, zero_mul] at hvalue
    exact lt_irrefl _ hvalue
  obtain ⟨zeros, hlength, hzeros, hw⟩ := significantDigits_spec hdigits
  have hstyle := inStyle_iff pos finite
  rw [← length_toDigits_add hdigits] at hstyle
  unfold positiveText
  dsimp only
  split
  · next h =>
    obtain ⟨whole, fraction, htext, hwhole, hfraction, hpoint⟩ := positionalText_eq hw
      ((Nat.toDigits 10 (shortestDecimal x).digits).length + (shortestDecimal x).exponent)
    refine .inl ⟨(hstyle.1 h).1, (hstyle.1 h).2, whole, fraction, htext, hwhole, hfraction, ?_⟩
    rw [hpoint, hlength, Decimal.value]
    have hexponent : (((significantDigits (shortestDecimal x).digits).length + zeros : ℕ) : ℤ) +
        (shortestDecimal x).exponent - (significantDigits (shortestDecimal x).digits).length =
        zeros + (shortestDecimal x).exponent := by
      push_cast
      ring
    rw [hexponent, zpow_add₀ (by norm_num), zpow_natCast]
    conv_rhs => rw [hzeros]
    push_cast
    ring
  · next h => exact .inr ⟨mt hstyle.2 h, _, _, rfl, hw⟩

end Number

end ClassLang
