/-
A linear congruential generator modulo a power of two.  With a multiplier that
is one more than a multiple of four and an odd increment it gets from every
residue to every other.
-/
import Mathlib

namespace Congruential

open Function

/-- A step of the generator. -/
def step (a c x : Int) : Int := a * x + c

variable {a c x y t m : Int}

/-- Many steps at once are a multiplication and an addition again. -/
theorem iterate_two_pow (ha : 4 ∣ a - 1) (hc : Odd c) (k : Nat) :
    ∃ p q : Int, ∀ x, (step a c)^[2 ^ k] x =
      (1 + 2 ^ (k + 2) * p) * x + 2 ^ k * (2 * q + 1) := by
  induction k with
  | zero =>
      obtain ⟨p, hp⟩ := ha
      obtain ⟨q, hq⟩ := hc
      refine ⟨p, q, fun x => ?_⟩
      rw [pow_zero, iterate_one, step, hq, sub_eq_iff_eq_add.mp hp]
      ring
  | succ k ih =>
      obtain ⟨p, q, hpower⟩ := ih
      refine ⟨p + 2 ^ (k + 1) * p ^ 2, q + 2 ^ k * p * (2 * q + 1),
        fun x => ?_⟩
      rw [pow_succ, mul_two, iterate_add_apply, hpower, hpower]
      ring

theorem iterate_two_pow_modEq (ha : 4 ∣ a - 1) (hc : Odd c) (k : Nat)
    (x : Int) : (step a c)^[2 ^ k] x ≡ x + 2 ^ k [ZMOD 2 ^ (k + 1)] := by
  obtain ⟨p, q, hpower⟩ := iterate_two_pow ha hc k
  rw [hpower]
  refine Int.modEq_iff_dvd.mpr ⟨-(2 * p * x + q), ?_⟩
  ring

theorem iterate_modEq (hxy : x ≡ y [ZMOD m]) (n : Nat) :
    (step a c)^[n] x ≡ (step a c)^[n] y [ZMOD m] := by
  induction n with
  | zero => exact hxy
  | succ n ih =>
      rw [iterate_succ_apply', iterate_succ_apply']
      exact (ih.mul_left a).add_right c

/-- Every residue is reached, before one comes up again. -/
theorem exists_iterate_modEq (ha : 4 ∣ a - 1) (hc : Odd c) (k : Nat)
    (x t : Int) : ∃ n < 2 ^ k, (step a c)^[n] x ≡ t [ZMOD 2 ^ k] := by
  induction k with
  | zero => exact ⟨0, by simp, Int.modEq_one⟩
  | succ k ih =>
      obtain ⟨n, hn, hreach⟩ := ih
      rw [pow_succ]
      obtain ⟨q, hq⟩ := Int.modEq_iff_dvd.mp hreach
      rcases Int.even_or_odd' q with ⟨r, hr | hr⟩
      · refine ⟨n, by omega, Int.modEq_iff_dvd.mpr ⟨r, ?_⟩⟩
        rw [hq, hr]
        ring
      · refine ⟨2 ^ k + n, by omega, ?_⟩
        rw [iterate_add_apply]
        refine (iterate_two_pow_modEq ha hc k _).trans
          (Int.modEq_iff_dvd.mpr ⟨r, ?_⟩)
        have hsplit : t - ((step a c)^[n] x + 2 ^ k) =
            t - (step a c)^[n] x - 2 ^ k := by ring
        rw [hsplit, hq, hr]
        ring

/-- Steps change odd and even. -/
theorem iterate_modEq_two (ha : 4 ∣ a - 1) (hc : Odd c) (n : Nat) (x : Int) :
    (step a c)^[n] x ≡ x + n [ZMOD 2] := by
  induction n with
  | zero => simp [Int.ModEq.refl]
  | succ n ih =>
      have hone := iterate_two_pow_modEq ha hc 0 ((step a c)^[n] x)
      simp only [pow_zero, zero_add, pow_one, iterate_one] at hone
      rw [iterate_succ_apply']
      have hnext := hone.trans (ih.add_right 1)
      rwa [add_assoc, ← Nat.cast_succ] at hnext

end Congruential
