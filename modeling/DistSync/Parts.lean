import Mathlib.Algebra.Order.Group.Nat

/-! The numbers below `n`, cut into `m` consecutive parts: all but the last are of length `n / m`,
and the last one has what is left. -/
namespace DistSync.Parts
variable {n m i p : Nat}

def start (n m i : Nat) : Nat := i * (n / m)

def stop (n m i : Nat) : Nat := if i = m - 1 then n else i * (n / m) + n / m

def part (n m p : Nat) : Nat := if n < m then m - 1 else min (p / (n / m)) (m - 1)

theorem part_lt (n p : Nat) (hm : 0 < m) : part n m p < m := by
  unfold part
  split <;> omega

theorem mul_div_le_of_le {j : Nat} (hj : j ≤ m) : j * (n / m) ≤ n :=
  (Nat.mul_le_mul_right _ hj).trans (Nat.mul_div_le n m)

theorem mem_iff (hi : i < m) : start n m i ≤ p ∧ p < stop n m i ↔ p < n ∧ i = part n m p := by
  unfold start stop part
  by_cases hnm : n < m
  · rw [if_pos hnm, Nat.div_eq_of_lt hnm]
    split <;> omega
  · have hq : 0 < n / m := Nat.div_pos (Nat.not_lt.mp hnm) (by omega)
    rw [if_neg hnm]
    by_cases hlast : i = m - 1
    · rw [if_pos hlast, ← Nat.le_div_iff_mul_le hq]
      omega
    · have hdiv : p / (n / m) = i ↔ i * (n / m) ≤ p ∧ p ≤ i * (n / m) + n / m - 1 :=
        Nat.div_eq_iff hq
      have hle : i * (n / m) + n / m ≤ n := by
        rw [← Nat.succ_mul]
        exact mul_div_le_of_le hi
      rw [if_neg hlast]
      generalize n / m = q at *
      omega

theorem length_eq (hi : i < m) :
    stop n m i - start n m i = n / m + if i = m - 1 then n % m else 0 := by
  unfold start stop
  split
  · rename_i hlast
    have hn := Nat.div_add_mod n m
    have hsucc : m * (n / m) = i * (n / m) + n / m := by
      rw [← Nat.succ_mul, hlast, Nat.succ_eq_add_one, Nat.sub_add_cancel (Nat.zero_lt_of_lt hi)]
    generalize n / m = q at *
    omega
  · generalize n / m = q
    omega

theorem length_le_succ_iff (hm : 0 < m) : (∀ i < m, ∀ j < m,
    stop n m i - start n m i ≤ stop n m j - start n m j + 1) ↔ n % m ≤ 1 := by
  constructor
  · intro h
    by_cases hone : m = 1
    · rw [hone, Nat.mod_one]
      exact Nat.zero_le 1
    · have hlt : m - 1 < m := by omega
      have := h (m - 1) hlt 0 hm
      rw [length_eq hlt, length_eq hm, if_pos rfl, if_neg (by omega)] at this
      omega
  · intro h i hi j hj
    rw [length_eq hi, length_eq hj]
    generalize n / m = q
    split <;> split <;> omega

end DistSync.Parts
