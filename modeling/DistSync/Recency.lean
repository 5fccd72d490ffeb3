import Mathlib.Data.List.Nodup
import Mathlib.Logic.Function.Basic

/-! Maps that hold a bounded number of keys and give up the one that was used longest ago. -/
namespace DistSync

/-- What is bound to each key, and the bound keys, the one used longest ago first. -/
structure Recency (κ ν : Type) where
  bound : κ → Option ν
  order : List κ
  nodup : order.Nodup
  mem_order : ∀ k, k ∈ order ↔ (bound k).isSome

namespace Recency
variable {κ ν : Type}

def empty : Recency κ ν where
  bound := fun _ => none
  order := []
  nodup := List.nodup_nil
  mem_order := by simp

variable [DecidableEq κ] (r : Recency κ ν) (k : κ)

/-- Bind `v` to `k`, which becomes the key used last. -/
def use (v : ν) : Recency κ ν where
  bound := Function.update r.bound k (some v)
  order := r.order.erase k ++ [k]
  nodup := by
    refine List.nodup_append.mpr ⟨r.nodup.erase k, List.nodup_singleton k, fun a ha b hb => ?_⟩
    rw [List.mem_singleton.mp hb]
    exact (r.nodup.mem_erase_iff.mp ha).1
  mem_order := by
    intro j
    by_cases hj : j = k
    · subst hj
      simp
    · simp [List.mem_erase_of_ne hj, hj, r.mem_order]

def remove : Recency κ ν where
  bound := Function.update r.bound k none
  order := r.order.erase k
  nodup := r.nodup.erase k
  mem_order := by
    intro j
    by_cases hj : j = k
    · subst hj
      simp [r.nodup.not_mem_erase]
    · simp [Function.update_of_ne hj, List.mem_erase_of_ne hj, r.mem_order]

/-- Look `k` up, which changes what is bound to it by `f`. -/
def get (f : ν → ν) : Option ν × Recency κ ν :=
  match r.bound k with
  | none => (none, r)
  | some v => (some (f v), r.use k (f v))

/-- The key that a new key `k` drives out of a full map. -/
def victim (capacity : Nat) : Option κ :=
  if k ∉ r.order ∧ capacity ≤ r.order.length then r.order.head? else none

/-- Bind `v` to `k`, with the key that had to go for it. -/
def put (capacity : Nat) (v : ν) : Option κ × Recency κ ν :=
  (r.victim k capacity, ((r.victim k capacity).elim r r.remove).use k v)

section Bound
variable (v : ν)

@[simp] theorem order_use : (r.use k v).order = r.order.erase k ++ [k] := rfl

@[simp] theorem bound_use_self : (r.use k v).bound k = some v := Function.update_self ..

@[simp] theorem order_remove : (r.remove k).order = r.order.erase k := rfl

variable {k} {j : κ}

theorem bound_use_of_ne (h : j ≠ k) : (r.use k v).bound j = r.bound j :=
  Function.update_of_ne h ..

theorem bound_remove_of_ne (h : j ≠ k) : (r.remove k).bound j = r.bound j :=
  Function.update_of_ne h ..

end Bound

theorem get_fst (f : ν → ν) : (r.get k f).1 = (r.bound k).map f := by
  unfold get
  cases r.bound k <;> rfl

theorem length_use (v : ν) :
    (r.use k v).order.length = if k ∈ r.order then r.order.length else r.order.length + 1 := by
  rw [order_use, List.length_append, List.length_singleton]
  split
  · rename_i h
    have := List.length_pos_of_mem h
    rw [List.length_erase_of_mem h]
    omega
  · rename_i h
    rw [List.erase_of_not_mem h]

theorem length_get (f : ν → ν) : (r.get k f).2.order.length = r.order.length := by
  unfold get
  cases h : r.bound k with
  | none => rfl
  | some v => rw [length_use, if_pos ((r.mem_order k).mpr (by rw [h]; rfl))]

theorem length_put_le {capacity : Nat} (hc : 0 < capacity) (h : r.order.length ≤ capacity)
    (v : ν) : (r.put k capacity v).2.order.length ≤ capacity := by
  rw [put]
  by_cases hk : k ∈ r.order
  · rw [victim, if_neg (fun hf => hf.1 hk)]
    simpa only [Option.elim, length_use, if_pos hk] using h
  by_cases hfull : capacity ≤ r.order.length
  · rw [victim, if_pos ⟨hk, hfull⟩]
    cases ho : r.order with
    | nil =>
      rw [ho] at hfull
      exact absurd hfull (Nat.not_le.mpr hc)
    | cons j js =>
      have hj : k ∉ (r.remove j).order := fun hm => hk (List.mem_of_mem_erase hm)
      have hlen : (r.remove j).order.length = js.length := by simp [remove, ho]
      rw [ho, List.length_cons] at h
      simpa only [List.head?_cons, Option.elim, length_use, if_neg hj, hlen] using h
  · rw [victim, if_neg (fun hf => hfull hf.2)]
    simp only [Option.elim, length_use, if_neg hk]
    omega

end Recency
end DistSync
