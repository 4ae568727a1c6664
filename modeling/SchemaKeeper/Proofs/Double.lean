import Mathlib.Algebra.Group.Nat.Defs
import Mathlib.Tactic.SplitIfs
import SchemaKeeper.Number.Double

/-!
# Integers as floating-point numbers

An integer of 64 bits lies far below the largest finite number, so the number nearest to it is
finite.
-/
namespace SchemaKeeper.Double

theorem roundQuotient_le (num den : Nat) : roundQuotient num den ≤ num / den + 1 := by
  unfold roundQuotient
  dsimp only
  split_ifs <;> omega

/-- Below the bits of infinity all numbers are finite. -/
theorem isFinite_signed {negative : Bool} {magnitude : Nat} (h : magnitude < infinityBits) :
    (signed negative magnitude).isFinite = true := by
  have hbits : infinityBits = 2047 * 4503599627370496 := by decide
  have hpow : Nat.pow 2 52 = 4503599627370496 := by decide
  have hcount : Nat.pow 2 11 = 2048 := by decide
  have hhigh : Nat.pow 2 63 = 9223372036854775808 := by decide
  rw [hbits] at h
  unfold isFinite exponentBits signed
  rw [bne_iff_ne, UInt64.toNat_ofNat', hpow, hcount, hhigh]
  cases negative
  · simp only [Bool.false_eq_true, if_false]
    omega
  · simp only [if_true]
    omega

/-- The significand that a whole number is rounded to has at most 53 bits and a carry. -/
theorem whole_le (num : Nat) {scale : Int} (hscale : scale = (num.log2 : Int) - 52) :
    (if 0 ≤ scale then roundQuotient num (1 * Nat.pow 2 scale.toNat)
      else roundQuotient (num * Nat.pow 2 (-scale).toNat) 1) ≤ 2 ^ 53 + 1 := by
  have hlt : num < 2 ^ (num.log2 + 1) := Nat.lt_log2_self
  split
  · rename_i hpos
    have hquotient : num / 2 ^ scale.toNat < 2 ^ 53 := by
      rw [Nat.div_lt_iff_lt_mul (Nat.two_pow_pos _)]
      calc num < 2 ^ (num.log2 + 1) := hlt
        _ = 2 ^ 53 * 2 ^ scale.toNat := by
          rw [← Nat.pow_add]
          congr 1
          omega
    rw [Nat.one_mul]
    exact Nat.le_trans (roundQuotient_le _ _) (Nat.succ_le_succ (Nat.le_of_lt hquotient))
  · rename_i hneg
    have hproduct : num * 2 ^ (-scale).toNat < 2 ^ 53 := by
      calc num * 2 ^ (-scale).toNat
          < 2 ^ (num.log2 + 1) * 2 ^ (-scale).toNat :=
            Nat.mul_lt_mul_of_pos_right hlt (Nat.two_pow_pos _)
        _ = 2 ^ 53 := by
          rw [← Nat.pow_add]
          congr 1
          omega
    refine Nat.le_trans (roundQuotient_le _ _) (Nat.succ_le_succ (Nat.le_of_lt ?_))
    rw [Nat.div_one]
    exact hproduct

theorem isFinite_ofRatio {negative : Bool} {num : Nat} (h : num < 2 ^ 64) :
    (ofRatio negative num 1).isFinite = true := by
  unfold ofRatio
  split
  · exact isFinite_signed (by decide)
  · rename_i hnum
    have hlog : num.log2 < 64 := (Nat.log2_lt hnum).2 h
    have hreached : Nat.pow 2 num.log2 ≤ num := Nat.log2_self_le hnum
    have hone : Nat.log2 1 = 0 := by decide
    have hscale : max (-1074) (((num.log2 : Int) - ((0 : Nat) : Int)) - 52) =
        (num.log2 : Int) - 52 := by omega
    have htrue : (if 0 ≤ (num.log2 : Int) - ((0 : Nat) : Int)
        then decide (1 * Nat.pow 2 ((num.log2 : Int) - ((0 : Nat) : Int)).toNat ≤ num)
        else decide (1 ≤ num * Nat.pow 2 (-((num.log2 : Int) - ((0 : Nat) : Int))).toNat)) =
        true := by
      rw [if_pos (by omega), decide_eq_true_eq, Nat.one_mul]
      exact hreached
    dsimp only
    rw [hone, htrue, if_pos rfl, hscale]
    refine isFinite_signed (Nat.lt_of_le_of_lt (Nat.min_le_right _ _) ?_)
    have hwhole := whole_le num (rfl : (num.log2 : Int) - 52 = _)
    have hexponent : ((num.log2 : Int) - 52 + 1074).toNat ≤ 1085 := by omega
    have hbits : infinityBits = 2047 * Nat.pow 2 52 := rfl
    have hpow : Nat.pow 2 52 = 4503599627370496 := by decide
    rw [hbits, hpow]
    have hproduct := Nat.mul_le_mul_right 4503599627370496 hexponent
    omega

/-- The nearest number to an integer of 64 bits is finite. -/
theorem isFinite_ofInt (n : Int64) : (ofInt n.toInt).isFinite = true := by
  have hlow := n.minValue_le_toInt
  have hhigh := n.toInt_le
  refine isFinite_ofRatio ?_
  have hmin : Int64.minValue.toInt = -9223372036854775808 := by decide
  have hmax : Int64.maxValue.toInt = 9223372036854775807 := by decide
  omega

end SchemaKeeper.Double
