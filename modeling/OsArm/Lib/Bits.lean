import Mathlib

/-!
# Sets as machine words

A `w`-bit word used as a set of small numbers: `bit i` is the mask of one
element, and testing, adding and removing an element are the usual mask
operations (`and_bit_eq_zero_iff`, `getLsbD_or_bit`, `getLsbD_and_not_bit`).
-/

namespace BitSet

variable {w : Nat}

/-- The mask of the element `i`. -/
def bit (w i : Nat) : BitVec w := 1#w <<< i

theorem getLsbD_bit (i j : Nat) : (bit w i).getLsbD j = (decide (j < w) && decide (j = i)) := by
  rw [bit, BitVec.getLsbD_shiftLeft, BitVec.getLsbD_one]
  by_cases hj : j < w
  · by_cases hji : j = i
    · subst hji
      simp [hj]
      omega
    · have : j - i = 0 → j < i := by omega
      by_cases hlt : j < i
      · simp [hj, hji, hlt]
      · have : j - i ≠ 0 := by omega
        simp [hj, hji, this]
  · simp [hj]

/-- Testing an element. -/
theorem and_bit_eq_zero_iff {s : BitVec w} {i : Nat} (hi : i < w) :
    s &&& bit w i = 0#w ↔ s.getLsbD i = false := by
  constructor
  · intro h
    have hbit : (s &&& bit w i).getLsbD i = false := by rw [h, BitVec.getLsbD_zero]
    rw [BitVec.getLsbD_and, getLsbD_bit] at hbit
    simpa only [hi, decide_true, Bool.and_self, Bool.and_true] using hbit
  · intro h
    apply BitVec.eq_of_getLsbD_eq
    intro j hj
    rw [BitVec.getLsbD_and, getLsbD_bit, BitVec.getLsbD_zero]
    by_cases hji : j = i
    · rw [hji, h, Bool.false_and]
    · simp [hji]

/-- Adding an element. -/
theorem getLsbD_or_bit {s : BitVec w} {i j : Nat} (hi : i < w) :
    (s ||| bit w i).getLsbD j = (s.getLsbD j || decide (j = i)) := by
  rw [BitVec.getLsbD_or, getLsbD_bit]
  by_cases hji : j = i
  · simp [hji, hi]
  · simp [hji]

/-- Removing an element. -/
theorem getLsbD_and_not_bit {s : BitVec w} {i j : Nat} :
    (s &&& ~~~bit w i).getLsbD j = (s.getLsbD j && !decide (j = i)) := by
  rw [BitVec.getLsbD_and, BitVec.getLsbD_not, getLsbD_bit]
  by_cases hj : j < w
  · simp [hj]
  · simp [hj, BitVec.getLsbD_of_ge s j (by omega)]

end BitSet
