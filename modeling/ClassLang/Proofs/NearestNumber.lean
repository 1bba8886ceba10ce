import ClassLang.Number.FloatReading
import Mathlib.Data.Int.Log
import Mathlib.Data.Rat.Floor
import Mathlib.Tactic.FieldSimp
import Mathlib.Tactic.Linarith
import Mathlib.Tactic.Positivity
import Mathlib.Tactic.Ring

/-!
# The number nearest to a fraction

A positive finite number of the format is a mantissa times a power of two. `Binary64.Rounds` says
which rational numbers are rounded to it: those up to half-way to its neighbours, and a half-way
point only if the mantissa is even. `contains_iff` shows that the interval by which shortest digits
are chosen is this set, and `nearestMagnitude_eq` that reading gives the bits of the number to each
fraction in it. So any digits that lie in the interval are read back as the number.
-/

set_option autoImplicit false

namespace ClassLang.Number

open Fraction

/-! ## Fractions as numbers -/

namespace Fraction

/-- The number that a fraction stands for. -/
def value (a : Fraction) : ℚ := a.num / a.den

/-- What `ofBinary` and `ofDecimal` have in common: `n * base ^ e` as a fraction. -/
theorem value_scaled (base n : ℕ) (hbase : 0 < base) (e : ℤ) :
    (if 0 ≤ e then (⟨n * Nat.pow base e.toNat, 1⟩ : Fraction)
      else ⟨n, Nat.pow base (-e).toNat⟩).value = n * (base : ℚ) ^ e := by
  have hne : (base : ℚ) ≠ 0 := by exact_mod_cast hbase.ne'
  rcases le_or_gt 0 e with he | he
  · obtain ⟨k, rfl⟩ := Int.eq_ofNat_of_zero_le he
    rw [if_pos he, value]
    simp
  obtain ⟨k, hk⟩ := Int.eq_ofNat_of_zero_le (by omega : 0 ≤ -e)
  obtain rfl : e = -(k : ℤ) := by omega
  rw [if_neg (by omega), value]
  simp [div_eq_mul_inv]

theorem den_scaled_pos (base n : ℕ) (hbase : 0 < base) (e : ℤ) :
    0 < (if 0 ≤ e then (⟨n * Nat.pow base e.toNat, 1⟩ : Fraction)
      else ⟨n, Nat.pow base (-e).toNat⟩).den := by
  split
  · exact Nat.one_pos
  · exact Nat.pow_pos hbase

theorem value_ofBinary (n : ℕ) (e : ℤ) : (ofBinary n e).value = n * (2 : ℚ) ^ e :=
  value_scaled 2 n (by decide) e

theorem value_ofDecimal (n : ℕ) (e : ℤ) : (ofDecimal n e).value = n * (10 : ℚ) ^ e :=
  value_scaled 10 n (by decide) e

theorem den_ofBinary_pos (n : ℕ) (e : ℤ) : 0 < (ofBinary n e).den :=
  den_scaled_pos 2 n (by decide) e

theorem den_ofDecimal_pos (n : ℕ) (e : ℤ) : 0 < (ofDecimal n e).den :=
  den_scaled_pos 10 n (by decide) e

variable {a b : Fraction}

theorem le_iff (ha : 0 < a.den) (hb : 0 < b.den) : a.le b = true ↔ a.value ≤ b.value := by
  have ha' : (0 : ℚ) < a.den := by exact_mod_cast ha
  have hb' : (0 : ℚ) < b.den := by exact_mod_cast hb
  rw [le, decide_eq_true_eq, value, value, div_le_div_iff₀ ha' hb']
  exact_mod_cast Iff.rfl

theorem lt_iff (ha : 0 < a.den) (hb : 0 < b.den) : a.lt b = true ↔ a.value < b.value := by
  have ha' : (0 : ℚ) < a.den := by exact_mod_cast ha
  have hb' : (0 : ℚ) < b.den := by exact_mod_cast hb
  rw [lt, decide_eq_true_eq, value, value, div_lt_div_iff₀ ha' hb']
  exact_mod_cast Iff.rfl

theorem num_pos (ha : 0 < a.value) : 0 < a.num := by
  rw [Nat.pos_iff_ne_zero]
  intro hnum
  rw [value, hnum, Nat.cast_zero, zero_div] at ha
  exact lt_irrefl _ ha

theorem den_pos (ha : 0 < a.value) : 0 < a.den := by
  rw [Nat.pos_iff_ne_zero]
  intro hden
  rw [value, hden, Nat.cast_zero, div_zero] at ha
  exact lt_irrefl _ ha

end Fraction

/-! ## Rounding -/

/-- The rounded quotient is the natural number that lies within one half of the quotient, where an
odd one lies strictly within. -/
theorem roundedQuotient_eq {num den m : ℕ} (hden : 0 < den) (low : (m : ℚ) - 1 / 2 ≤ num / den)
    (high : (num : ℚ) / den ≤ m + 1 / 2)
    (odd : m % 2 = 1 → (m : ℚ) - 1 / 2 < num / den ∧ (num : ℚ) / den < m + 1 / 2) :
    roundedQuotient num den = m := by
  have hden' : (0 : ℚ) < den := by exact_mod_cast hden
  -- the bounds over the natural numbers
  have hlow : 2 * m * den ≤ 2 * num + den := by
    rw [le_div_iff₀ hden'] at low
    have : (2 * m * den : ℚ) ≤ 2 * num + den := by linarith
    exact_mod_cast this
  have hhigh : 2 * num ≤ 2 * m * den + den := by
    rw [div_le_iff₀ hden'] at high
    have : (2 * num : ℚ) ≤ 2 * m * den + den := by linarith
    exact_mod_cast this
  have hodd : m % 2 = 1 → 2 * m * den < 2 * num + den ∧ 2 * num < 2 * m * den + den := by
    intro hm
    obtain ⟨h, h'⟩ := odd hm
    rw [lt_div_iff₀ hden'] at h
    rw [div_lt_iff₀ hden'] at h'
    have h₁ : (2 * m * den : ℚ) < 2 * num + den := by linarith
    have h₂ : (2 * num : ℚ) < 2 * m * den + den := by linarith
    exact ⟨by exact_mod_cast h₁, by exact_mod_cast h₂⟩
  have hsplit : den * (num / den) + num % den = num := Nat.div_add_mod num den
  have hrest : num % den < den := Nat.mod_lt num hden
  unfold roundedQuotient
  dsimp only
  generalize num / den = down at *
  generalize num % den = rest at *
  obtain rfl : num = den * down + rest := hsplit.symm
  have hle : m ≤ down + 1 := by
    by_contra hgt
    have hmul : (down + 2) * den ≤ m * den := Nat.mul_le_mul_right den (by omega)
    nlinarith
  have hge : down ≤ m := by
    by_contra hlt
    have hmul : (m + 1) * den ≤ down * den := Nat.mul_le_mul_right den (by omega)
    nlinarith
  rcases Nat.lt_or_eq_of_le hge with hlt | rfl
  · -- rounded up: the rest is at least one half
    obtain rfl : m = down + 1 := by omega
    have hhalf : den ≤ 2 * rest := by nlinarith
    have htie : (down + 1) % 2 = 1 → den < 2 * rest := fun hm => by nlinarith [(hodd hm).1]
    rw [if_neg (by omega)]
    split
    · rfl
    · rw [if_neg (by omega)]
  · have hhalf : 2 * rest ≤ den := by nlinarith
    have htie : down % 2 = 1 → 2 * rest < den := fun hm => by nlinarith [(hodd hm).2]
    split
    · rfl
    · rw [if_neg (by omega), if_pos (by omega)]

/-! ## The size of a fraction -/

/-- A logarithm is known by the powers before and behind the number. -/
theorem log_eq {base : ℕ} (hbase : 1 < base) {q : ℚ} (hq : 0 < q) {k : ℤ} (low : (base : ℚ) ^ k ≤ q)
    (high : q < (base : ℚ) ^ (k + 1)) : Int.log base q = k := by
  rw [Int.zpow_le_iff_le_log hbase hq] at low
  rw [Int.lt_zpow_iff_log_lt hbase hq] at high
  omega

/-- The exponent of the greatest power of two that is not above a positive fraction. -/
theorem binaryMagnitude_eq {v : Fraction} (hv : 0 < v.value) :
    binaryMagnitude v = Int.log 2 v.value := by
  have hnum : v.num ≠ 0 := (num_pos hv).ne'
  have hden : v.den ≠ 0 := (den_pos hv).ne'
  have hnum' : (0 : ℚ) < v.num := by exact_mod_cast num_pos hv
  have hden' : (0 : ℚ) < v.den := by exact_mod_cast den_pos hv
  have hpow : ∀ i j : ℕ, ((2 : ℕ) : ℚ) ^ ((i : ℤ) - j) = ((2 ^ i : ℕ) : ℚ) / (2 ^ j : ℕ) := by
    intro i j
    rw [zpow_sub₀ (by norm_num)]
    simp
  -- the quotient of the leading bits is wrong by less than a factor of two
  have hle : ((2 : ℕ) : ℚ) ^ ((v.num.log2 : ℤ) - v.den.log2 - 1) ≤ v.value := by
    have hexp : (v.num.log2 : ℤ) - v.den.log2 - 1 = (v.num.log2 : ℤ) - (v.den.log2 + 1 : ℕ) := by
      push_cast
      ring
    rw [hexp, hpow, value]
    have hnumle : ((2 ^ v.num.log2 : ℕ) : ℚ) ≤ v.num := by exact_mod_cast Nat.log2_self_le hnum
    have hdenle : (v.den : ℚ) ≤ (2 ^ (v.den.log2 + 1) : ℕ) := by
      exact_mod_cast Nat.le_of_lt Nat.lt_log2_self
    exact div_le_div₀ hnum'.le hnumle hden' hdenle
  have hlt : v.value < ((2 : ℕ) : ℚ) ^ ((v.num.log2 : ℤ) - v.den.log2 + 1) := by
    have hexp : (v.num.log2 : ℤ) - v.den.log2 + 1 = ((v.num.log2 + 1 : ℕ) : ℤ) - v.den.log2 := by
      push_cast
      ring
    rw [hexp, hpow, value]
    have hnumlt : (v.num : ℚ) < (2 ^ (v.num.log2 + 1) : ℕ) := by exact_mod_cast Nat.lt_log2_self
    have hdenle : ((2 ^ v.den.log2 : ℕ) : ℚ) ≤ v.den := by exact_mod_cast Nat.log2_self_le hden
    have hpos : (0 : ℚ) < (2 ^ v.den.log2 : ℕ) := by positivity
    exact div_lt_div₀ hnumlt hdenle (by positivity) hpos
  rw [Int.zpow_le_iff_le_log (by decide) hv] at hle
  rw [Int.lt_zpow_iff_log_lt (by decide) hv] at hlt
  unfold binaryMagnitude
  dsimp only
  generalize (v.num.log2 : ℤ) - v.den.log2 = guess at *
  have hguess : (ofBinary 1 guess).le v = true ↔ guess ≤ Int.log 2 v.value := by
    rw [le_iff (den_ofBinary_pos 1 guess) (den_pos hv),
      value_ofBinary, Nat.cast_one, one_mul,
      ← Int.zpow_le_iff_le_log (b := 2) (by decide) hv]
    norm_cast
  split
  · next h =>
    have := hguess.1 h
    omega
  · next h =>
    have := mt hguess.2 h
    omega

end ClassLang.Number

namespace ClassLang

/-! ## The numbers of the format -/

namespace Binary64

variable (x : Binary64)

/-- The mantissa and the exponent of a finite number are those of the format: the mantissa fits, and
only with the least exponent may it have fewer bits. -/
theorem mantissa_lt : x.mantissa < 2 ^ 53 := by
  unfold mantissa
  simp only [Nat.pow_eq]
  split <;> omega

theorem exponent_ge : -1074 ≤ x.exponent := by
  unfold exponent
  simp only [Nat.pow_eq]
  split
  · exact le_refl _
  · omega

theorem exponent_eq_or : x.exponent = -1074 ∨ 2 ^ 52 ≤ x.mantissa := by
  unfold exponent mantissa
  simp only [Nat.pow_eq]
  split
  · exact .inl rfl
  · exact .inr (Nat.le_add_right _ _)

/-- The bits of a number are its mantissa behind its exponent. The leading bit of the mantissa counts
for the exponent. -/
theorem magnitude_eq : (x.exponent + 1074).toNat * 2 ^ 52 + x.mantissa = x.magnitude := by
  unfold exponent mantissa
  simp only [Nat.pow_eq]
  split
  · simp
  · omega

theorem mantissa_pos (h : 0 < x.magnitude) : 0 < x.mantissa := by
  unfold mantissa
  simp only [Nat.pow_eq]
  split
  · exact h
  · omega

/-- The number without its sign. -/
def size : ℚ := x.mantissa * 2 ^ x.exponent

/-- How far down the numbers that round to `x` reach, counted in its last bit: below the smallest
mantissa the next number is twice as near. -/
def reach : ℚ := if x.mantissa = 2 ^ 52 then 1 / 4 else 1 / 2

/-- The number `q` lies where numbers are rounded to `x`. Half-way points go to an even mantissa. -/
structure Rounds (q : ℚ) : Prop where
  low : (x.mantissa - x.reach) * 2 ^ x.exponent ≤ q
  high : q ≤ (x.mantissa + 1 / 2) * 2 ^ x.exponent
  odd : x.mantissa % 2 = 1 →
    (x.mantissa - x.reach) * 2 ^ x.exponent < q ∧ q < (x.mantissa + 1 / 2) * 2 ^ x.exponent

variable {x}

theorem reach_pos : 0 < x.reach := by
  unfold reach
  split <;> norm_num

theorem reach_le : x.reach ≤ 1 / 2 := by
  unfold reach
  split <;> norm_num

end Binary64

namespace Number

open Binary64 (Rounds)

variable {x : Binary64} {v : Fraction}

theorem contains_iff (pos : 0 < x.magnitude) (hv : 0 < v.den) :
    (roundingInterval x).contains v = true ↔ x.Rounds v.value := by
  have hpos := x.mantissa_pos pos
  -- the ends are counted in quarters of the last bit
  have hquarter : (2 : ℚ) ^ (x.exponent - 2) = 2 ^ x.exponent / 4 := by
    rw [zpow_sub₀ (by norm_num)]
    norm_num
  have hlow : (roundingInterval x).low.value = (x.mantissa - x.reach) * 2 ^ x.exponent := by
    change (Fraction.ofBinary _ _).value = _
    rw [Fraction.value_ofBinary, hquarter, Binary64.reach]
    simp only [Nat.pow_eq]
    split
    · rw [Nat.cast_sub (by omega)]
      push_cast
      ring
    · rw [Nat.cast_sub (by omega)]
      push_cast
      ring
  have hhigh : (roundingInterval x).high.value = (x.mantissa + 1 / 2) * 2 ^ x.exponent := by
    change (Fraction.ofBinary _ _).value = _
    rw [Fraction.value_ofBinary, hquarter]
    push_cast
    ring
  have hlowDen : 0 < (roundingInterval x).low.den := Fraction.den_ofBinary_pos _ _
  have hhighDen : 0 < (roundingInterval x).high.den := Fraction.den_ofBinary_pos _ _
  have hclosed : (roundingInterval x).closed = decide (x.mantissa % 2 = 0) := rfl
  unfold RoundingInterval.contains
  rw [hclosed]
  by_cases heven : x.mantissa % 2 = 0
  · rw [decide_eq_true heven, if_pos rfl, Bool.and_eq_true, Fraction.le_iff hlowDen hv,
      Fraction.le_iff hv hhighDen, hlow, hhigh]
    constructor
    · rintro ⟨hl, hh⟩
      exact ⟨hl, hh, fun hodd => absurd hodd (by omega)⟩
    · intro h
      exact ⟨h.low, h.high⟩
  · rw [decide_eq_false heven, if_neg Bool.false_ne_true, Bool.and_eq_true,
      Fraction.lt_iff hlowDen hv, Fraction.lt_iff hv hhighDen, hlow, hhigh]
    constructor
    · rintro ⟨hl, hh⟩
      exact ⟨hl.le, hh.le, fun _ => ⟨hl, hh⟩⟩
    · intro h
      exact h.odd (by omega)

/-- The mantissa that comes out when its last bit counts `2 ^ unit`. -/
theorem roundedQuotient_scaled {unit : ℤ} {m : ℕ} (hv : 0 < v.value)
    (low : (m - 1 / 2) * 2 ^ unit ≤ v.value) (high : v.value ≤ (m + 1 / 2) * 2 ^ unit)
    (odd : m % 2 = 1 → (m - 1 / 2) * 2 ^ unit < v.value ∧ v.value < (m + 1 / 2) * 2 ^ unit) :
    roundedQuotient (v.num * (Fraction.ofBinary 1 unit).den)
      (v.den * (Fraction.ofBinary 1 unit).num) = m := by
  have hunit : (0 : ℚ) < 2 ^ unit := zpow_pos (by norm_num) _
  have hscale : (Fraction.ofBinary 1 unit).value = 2 ^ unit := by
    rw [Fraction.value_ofBinary, Nat.cast_one, one_mul]
  have hnum : 0 < (Fraction.ofBinary 1 unit).num := Fraction.num_pos (hscale ▸ hunit)
  have hden : 0 < v.den := Fraction.den_pos hv
  have hquotient : ((v.num * (Fraction.ofBinary 1 unit).den : ℕ) : ℚ) /
      (v.den * (Fraction.ofBinary 1 unit).num : ℕ) = v.value / 2 ^ unit := by
    rw [← hscale, Fraction.value, Fraction.value]
    push_cast
    rw [div_div_div_eq]
  refine roundedQuotient_eq (Nat.mul_pos hden hnum) ?_ ?_ ?_
  · rwa [hquotient, le_div_iff₀ hunit]
  · rwa [hquotient, div_le_iff₀ hunit]
  · intro hm
    rw [hquotient, lt_div_iff₀ hunit, div_lt_iff₀ hunit]
    exact odd hm

/-- **Reading is rounding.** The bits that are read from a positive fraction are those of the number
that it rounds to. -/
theorem nearestMagnitude_eq (pos : 0 < x.magnitude) (finite : x.magnitude < Binary64.infinityBits)
    (h : x.Rounds v.value) : nearestMagnitude v = x.magnitude := by
  have hm : (1 : ℚ) ≤ x.mantissa := by exact_mod_cast x.mantissa_pos pos
  have hlt : (x.mantissa : ℚ) + 1 ≤ 2 ^ 53 := by exact_mod_cast x.mantissa_lt
  have hbit : (0 : ℚ) < 2 ^ x.exponent := zpow_pos (by norm_num) _
  have hreach := x.reach_le
  have hge := x.exponent_ge
  have hmagnitude := x.magnitude_eq
  have hv : 0 < v.value := by
    have := h.low
    nlinarith
  have htop : v.value < ((2 : ℕ) : ℚ) ^ (x.exponent + 53) := by
    rw [zpow_add₀ (by norm_num)]
    have := h.high
    push_cast
    nlinarith
  rw [Int.lt_zpow_iff_log_lt (by decide) hv] at htop
  have hunit : max (Int.log 2 v.value - 52) (-1074) = x.exponent ∨
      -1074 < x.exponent ∧ Int.log 2 v.value < x.exponent + 52 := by omega
  unfold nearestMagnitude
  dsimp only
  rw [binaryMagnitude_eq hv]
  rcases hunit with hunit | ⟨hnormal, hbelow⟩
  · -- the last bit counts what it counts in `x`
    have hmantissa : roundedQuotient (v.num * (Fraction.ofBinary 1 x.exponent).den)
        (v.den * (Fraction.ofBinary 1 x.exponent).num) = x.mantissa := by
      refine roundedQuotient_scaled hv ?_ h.high ?_
      · have := h.low
        nlinarith
      · intro hodd
        obtain ⟨hl, hh⟩ := h.odd hodd
        exact ⟨by nlinarith, hh⟩
    rw [hunit, hmantissa, Nat.pow_eq, hmagnitude]
    exact min_eq_left finite.le
  · -- just below a power of two the last bit counts half of that, and the mantissa is rounded up
    rw [← Int.lt_zpow_iff_log_lt (by decide) hv, zpow_add₀ (by norm_num)] at hbelow
    push_cast at hbelow
    have hsmallest : x.mantissa = 2 ^ 52 := by
      refine le_antisymm ?_ (x.exponent_eq_or.resolve_left (by omega))
      by_contra hgt
      have hgt' : (2 : ℚ) ^ 52 + 1 ≤ x.mantissa := by exact_mod_cast Nat.lt_of_not_le hgt
      have := h.low
      nlinarith
    have hlow := h.low
    rw [Binary64.reach, if_pos hsmallest, hsmallest] at hlow
    push_cast at hlow
    have hhalf : (2 : ℚ) ^ x.exponent = 2 ^ (x.exponent - 1) * 2 := by
      rw [← zpow_add_one₀ (by norm_num), sub_add_cancel]
    have hlog : Int.log 2 v.value = x.exponent + 51 := by
      refine log_eq (by decide) hv ?_ ?_
      · rw [zpow_add₀ (by norm_num)]
        push_cast
        nlinarith
      · rw [add_assoc, zpow_add₀ (by norm_num)]
        push_cast
        linarith
    have hmantissa : roundedQuotient (v.num * (Fraction.ofBinary 1 (x.exponent - 1)).den)
        (v.den * (Fraction.ofBinary 1 (x.exponent - 1)).num) = 2 ^ 53 := by
      refine roundedQuotient_scaled hv ?_ ?_ (fun hodd => absurd hodd (by norm_num))
      · push_cast
        linarith
      · push_cast
        linarith
    have hunit : max (Int.log 2 v.value - 52) (-1074) = x.exponent - 1 := by omega
    rw [hunit, hmantissa, Nat.pow_eq]
    have hstep : (x.exponent + 1074).toNat = (x.exponent - 1 + 1074).toNat + 1 := by omega
    rw [hsmallest, hstep] at hmagnitude
    have hbits : (x.exponent - 1 + 1074).toNat * 2 ^ 52 + 2 ^ 53 = x.magnitude := by linarith
    rw [hbits]
    exact min_eq_left finite.le

end Number

end ClassLang
