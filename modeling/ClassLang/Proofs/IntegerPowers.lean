import ClassLang.Machine.Host
import ClassLang.Proofs.CoveredText
import ClassLang.Proofs.Spelling
import Mathlib.Tactic.Linarith
import Mathlib.Tactic.Ring

/-!
# Powers of integers are exact

A power is computed by repeated squaring, and every product on the way has to fit. Nothing is lost by
that: a square or a partial product that does not fit divides the power, which then does not fit
either (`powerFrom?_eq`). Exponents of more than 32 bits are refused before, also for the bases 0, 1
and -1, all of whose powers fit. The main statement is `intPow_exact`.
-/

set_option autoImplicit false

namespace ClassLang

namespace Number

/-- The value is one of a signed 64-bit integer. -/
def Fits (value : Int) : Prop := -2 ^ 63 ≤ value ∧ value ≤ 2 ^ 63 - 1

instance (value : Int) : Decidable (Fits value) := inferInstanceAs (Decidable (_ ∧ _))

theorem fits_toInt (i : Int64) : Fits i.toInt := ⟨i.le_toInt, Int.le_sub_one_of_lt i.toInt_lt⟩

theorem int64Of?_eq_none {value : Int} (h : ¬ Fits value) : int64Of? value = none := if_neg h

theorem int64Of?_of_fits {value : Int} (h : Fits value) :
    int64Of? value = some (Int64.ofInt value) := if_pos h

theorem exists_int64Of? {value : Int} (h : Fits value) :
    ∃ i, int64Of? value = some i ∧ i.toInt = value :=
  ⟨_, int64Of?_of_fits h, toInt_of_int64Of? (int64Of?_of_fits h)⟩

variable {a b : Int}

theorem not_fits_mul (h : ¬ Fits a) (hb : 1 ≤ b) : ¬ Fits (a * b) := by
  unfold Fits at h ⊢
  rintro ⟨hlow, hhigh⟩
  rcases Int.le_total 0 a with ha | ha
  · exact h ⟨by omega, by nlinarith⟩
  · exact h ⟨by nlinarith, by omega⟩

theorem not_fits_mul_large (ha : a ≠ 0) (hb : 2 ^ 63 < b) : ¬ Fits (a * b) := by
  rintro ⟨hlow, hhigh⟩
  rcases Int.lt_or_gt_of_ne ha with ha | ha
  · nlinarith
  · nlinarith

/-- No square is the first number that is too large. -/
theorem large_of_not_fits_square (h : ¬ Fits (a * a)) : 2 ^ 63 < a * a := by
  by_contra hle
  have hlow : -3037000500 < a := by nlinarith
  have hhigh : a < 3037000500 := by nlinarith
  exact h ⟨by nlinarith, by nlinarith⟩

/-- **Repeated squaring.** The product is given exactly if it fits. An accumulator of zero comes from
a base of zero, whose squares always fit. -/
theorem powerFrom?_eq {acc base : Int64} {exponent : Nat}
    (h : acc.toInt ≠ 0 ∨ base.toInt = 0) :
    powerFrom? acc base exponent = int64Of? (acc.toInt * base.toInt ^ exponent) := by
  induction exponent using Nat.strongRecOn generalizing acc base with
  | _ exponent ih =>
  rw [powerFrom?]
  split
  · next hzero => rw [hzero, pow_zero, mul_one, int64Of?_toInt]
  · next hpos =>
    have hsplit : acc.toInt * base.toInt ^ exponent =
        acc.toInt * base.toInt ^ (exponent % 2) * (base.toInt * base.toInt) ^ (exponent / 2) := by
      rw [mul_assoc, ← pow_two, ← pow_mul, ← pow_add, Nat.mod_add_div]
    have hfirst : (if exponent % 2 = 1 then product? acc base else some acc) =
        int64Of? (acc.toInt * base.toInt ^ (exponent % 2)) := by
      rcases Nat.mod_two_eq_zero_or_one exponent with hbit | hbit
      · rw [hbit, if_neg Nat.zero_ne_one, pow_zero, mul_one, int64Of?_toInt]
      · rw [hbit, if_pos rfl, pow_one, product?]
    rw [hfirst, hsplit]
    by_cases hfits : Fits (acc.toInt * base.toInt ^ (exponent % 2))
    · obtain ⟨acc', hacc', hvalue⟩ := exists_int64Of? hfits
      rw [hacc', ← hvalue, Option.bind_some]
      split
      · next hone => rw [hone, Nat.div_eq_of_lt Nat.one_lt_two, pow_zero, mul_one, int64Of?_toInt]
      · next hone =>
        have hnonzero : base.toInt ≠ 0 → acc'.toInt ≠ 0 := fun hbase => by
          rw [hvalue]
          exact mul_ne_zero (h.resolve_right hbase) (pow_ne_zero _ hbase)
        by_cases hsquare : Fits (base.toInt * base.toInt)
        · obtain ⟨square, hsome, hsquared⟩ := exists_int64Of? hsquare
          rw [product?, hsome, ← hsquared, Option.bind_some]
          refine ih (exponent / 2) (by omega) ?_
          rw [hsquared, mul_self_eq_zero]
          exact (em (base.toInt = 0)).symm.imp_left hnonzero
        -- the square divides what is left of the power
        have hlarge := large_of_not_fits_square hsquare
        have hbase : base.toInt ≠ 0 := by
          intro hzero
          rw [hzero] at hlarge
          omega
        rw [product?, int64Of?_eq_none hsquare, Option.bind_none, int64Of?_eq_none]
        exact not_fits_mul_large (hnonzero hbase)
          (hlarge.trans_le (le_self_pow₀ (by omega) (by omega)))
    · have hbase : base.toInt ≠ 0 := by
        intro hzero
        rcases Nat.mod_two_eq_zero_or_one exponent with hbit | hbit
        · rw [hbit, pow_zero, mul_one] at hfits
          exact hfits (fits_toInt acc)
        · rw [hbit, hzero] at hfits
          exact hfits ⟨by omega, by omega⟩
      have hsquare : 1 ≤ base.toInt * base.toInt := by
        have hpos := mul_self_pos.2 hbase
        omega
      rw [int64Of?_eq_none hfits, int64Of?_eq_none (not_fits_mul hfits (one_le_pow₀ hsquare))]
      rfl

/-- Only the bases 0, 1 and -1 have powers that fit for exponents of any size. -/
theorem lt_of_fits_pow {exponent : Nat} (ha : 1 < a.natAbs) (h : Fits (a ^ exponent)) :
    exponent < 64 := by
  by_contra hle
  have hlarge : 2 ^ 64 ≤ a.natAbs ^ exponent :=
    (Nat.pow_le_pow_left ha 64).trans (Nat.pow_le_pow_right (by omega) (by omega))
  rw [← Int.natAbs_pow] at hlarge
  unfold Fits at h
  omega

end Number

namespace Machine

open Number (Fits)

/-- **The power of integers.** The host gives the power if the exponent is not negative and the power
fits in 64 bits, and stops otherwise, with the base and the exponent in the message. But for an
exponent of more than 32 bits it stops in any case, also for the bases 0, 1 and -1. -/
theorem intPow_exact (base exponent : Int64) (texts : Texts) :
    (hostCall .intPow [.i64 base, .i64 exponent]).run texts =
      if 0 ≤ exponent.toInt ∧ Fits (base.toInt ^ exponent.toInt.toNat) ∧
          (1 < base.toInt.natAbs ∨ exponent.toInt < 2 ^ 32) then
        (.ok (.i64 (Int64.ofInt (base.toInt ^ exponent.toInt.toNat))), texts)
      else (.error (.powerOutOfRange base exponent), texts) := by
  have hone : (1 : Int64).toInt = 1 := rfl
  have hmax : ((Number.maxExponent : Nat) : Int) = 2 ^ 32 - 1 := rfl
  rw [hostCall, Number.powInt64?, hmax, Number.powerFrom?_eq (.inl (by decide)), hone, one_mul]
  by_cases hfits : Fits (base.toInt ^ exponent.toInt.toNat)
  · have hrange : 0 ≤ exponent.toInt ∧ exponent.toInt ≤ 2 ^ 32 - 1 ↔
        0 ≤ exponent.toInt ∧ (1 < base.toInt.natAbs ∨ exponent.toInt < 2 ^ 32) := by
      have hsmall := fun hbase => Number.lt_of_fits_pow hbase hfits
      omega
    simp only [hrange, hfits, true_and, Number.int64Of?_of_fits hfits]
    split_ifs <;> rfl
  · rw [Number.int64Of?_eq_none hfits, ite_self, if_neg fun h => hfits h.2.1]
    rfl

/-- Every power of 1 fits, and yet one is refused. -/
theorem power_of_one_refused :
    Fits ((1 : Int64).toInt ^ (4294967296 : Int64).toInt.toNat) ∧
      (hostCall .intPow [.i64 1, .i64 4294967296]).run #[] =
        (.error (.powerOutOfRange 1 4294967296), #[]) := by
  have hone : (1 : Int64).toInt = 1 := rfl
  refine ⟨?_, rfl⟩
  rw [hone, one_pow]
  decide

end Machine

end ClassLang
