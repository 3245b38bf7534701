/-
Time cut into cycles of equal length.

`t / c` is the cycle a time falls into and `t % c` the offset in it.  Played to and fro, the
position goes up in even cycles and down in odd ones: that is the triangle wave.  Time may
be negative, and mirroring it at the end of a whole number of cycles is a shift and a
reflection of the wave.
-/
import Mathlib.Data.Int.Order.Lemmas
import Mathlib.Tactic.Ring

namespace Cycles

variable {c t q r : Int}

theorem div_mod (hr : 0 ≤ r ∧ r < c) (h : t = q * c + r) : t / c = q ∧ t % c = r := by
  have hc : 0 < c := by omega
  rw [Int.ediv_emod_unique hc]
  exact ⟨by rw [h, Int.mul_comm c q, Int.add_comm], hr.1, hr.2⟩

theorem mod_two_cycles (hr : 0 ≤ r ∧ r < c) (h : t = q * c + r) : t % (2 * c) = q % 2 * c + r := by
  have hq := Int.emod_two_eq_zero_or_one q
  have hbound : 0 ≤ q % 2 * c + r ∧ q % 2 * c + r < 2 * c := by
    rcases hq with hq | hq <;> rw [hq] <;> omega
  have hsplit : t = q / 2 * (2 * c) + (q % 2 * c + r) := by
    have hdiv := Int.mul_ediv_add_emod q 2
    calc t = (2 * (q / 2) + q % 2) * c + r := by rw [hdiv, h]
      _ = q / 2 * (2 * c) + (q % 2 * c + r) := by ring
  exact (div_mod hbound hsplit).2

theorem exists_cycle (hc : 0 < c) (t : Int) : ∃ q r, (0 ≤ r ∧ r < c) ∧ t = q * c + r :=
  ⟨t / c, t % c, ⟨Int.emod_nonneg t (by omega), Int.emod_lt_of_pos t hc⟩,
    by rw [Int.mul_comm]; exact (Int.mul_ediv_add_emod t c).symm⟩

/-! ### The triangle wave -/

/-- Up from 0 to `c` and down again. -/
def triangle (c t : Int) : Int := if t % (2 * c) ≤ c then t % (2 * c) else 2 * c - t % (2 * c)

theorem triangle_cycle (hr : 0 ≤ r ∧ r < c) (h : t = q * c + r) : triangle c t = if q % 2 = 0 then r else c - r := by
  rw [triangle, mod_two_cycles hr h]
  rcases Int.emod_two_eq_zero_or_one q with hq | hq
  · rw [hq]
    simp only [Int.zero_mul, Int.zero_add, if_true]
    rw [if_pos (by omega)]
  · rw [hq]
    split <;> omega

theorem triangle_eq (hc : 0 < c) (t : Int) : triangle c t = if t % (2 * c) < c then t % c else c - t % c := by
  obtain ⟨q, r, hr, ht⟩ := exists_cycle hc t
  rw [triangle_cycle hr ht, mod_two_cycles hr ht, (div_mod hr ht).2]
  rcases Int.emod_two_eq_zero_or_one q with hq | hq
  · rw [hq, if_pos rfl, if_pos (by omega)]
  · rw [hq, if_neg one_ne_zero, if_neg (by omega)]

/-- Time that runs back from the end of `n` cycles. -/
theorem triangle_mirror (hc : 0 < c) (n t : Int) :
    triangle c (n * c - t) = if n % 2 = 0 then triangle c t else c - triangle c t := by
  obtain ⟨q, r, hr, ht⟩ := exists_cycle hc t
  rw [triangle_cycle hr ht]
  by_cases hzero : r = 0
  · have hmirror : n * c - t = (n - q) * c + 0 := by rw [ht, hzero]; ring
    rw [triangle_cycle ⟨Int.le_refl 0, hc⟩ hmirror]
    split <;> split <;> split <;> omega
  · have hmirror : n * c - t = (n - q - 1) * c + (c - r) := by rw [ht]; ring
    rw [triangle_cycle (by omega) hmirror]
    split <;> split <;> split <;> omega

end Cycles
