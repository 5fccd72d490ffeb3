import Mathlib.Data.List.Sort
import Mathlib.Data.Set.Basic

/-! Points on a circle: in which order they are met by a walk that goes upwards from a
given place and starts over at the least of them. -/
namespace DistSync
variable {α : Type} [LinearOrder α] {h p q : α} {s t : Set α} {l : List α}

/-- The walk from `h` meets `p` no later than `q`. -/
def Clockwise (h p q : α) : Prop := h ≤ p ∧ q < h ∨ (h ≤ p ↔ h ≤ q) ∧ p ≤ q

theorem Clockwise.antisymm (hpq : Clockwise h p q) (hqp : Clockwise h q p) : p = q := by
  rcases hpq with ⟨hp, hq⟩ | ⟨hside, hle⟩ <;> rcases hqp with ⟨hq', hp'⟩ | ⟨hside', hle'⟩
  · exact absurd hq' hq.not_ge
  · exact absurd (hside'.mpr hp) hq.not_ge
  · exact absurd (hside.mpr hq') hp'.not_ge
  · exact le_antisymm hle hle'

structure IsNext (h : α) (s : Set α) (p : α) : Prop where
  mem : p ∈ s
  first : ∀ q ∈ s, Clockwise h p q

theorem IsNext.unique (hp : IsNext h s p) (hq : IsNext h s q) : p = q :=
  (hp.first q hq.mem).antisymm (hq.first p hp.mem)

theorem IsNext.of_subset (hp : IsNext h t p) (hst : s ⊆ t) (hs : p ∈ s) : IsNext h s p :=
  ⟨hs, fun q hq => hp.first q (hst hq)⟩

def nextIn (h : α) (l : List α) : Option α := (l.find? (h ≤ ·)).or l.head?

theorem nextIn_eq_none : nextIn h l = none ↔ l = [] := by
  cases l with
  | nil => simp [nextIn]
  | cons a l => simp [nextIn]

theorem isNext_of_find? (hl : l.Pairwise (· ≤ ·)) (hp : l.find? (h ≤ ·) = some p) :
    IsNext h {q | q ∈ l} p := by
  obtain ⟨hle, before, after, rfl, hbefore⟩ := List.find?_eq_some_iff_append.mp hp
  have hle : h ≤ p := of_decide_eq_true hle
  refine ⟨by simp, fun q hq => ?_⟩
  rcases List.mem_append.mp hq with hq | hq
  · have hlt : q < h := by simpa using hbefore q hq
    exact .inl ⟨hle, hlt⟩
  · have hpq : p ≤ q := by
      cases List.mem_cons.mp hq with
      | inl he => exact he.ge
      | inr hq => exact (List.pairwise_cons.mp (List.pairwise_append.mp hl).2.1).1 q hq
    exact .inr ⟨⟨fun _ => hle.trans hpq, fun _ => hle⟩, hpq⟩

theorem isNext_nextIn (hl : l.Pairwise (· ≤ ·)) (hp : nextIn h l = some p) :
    IsNext h {q | q ∈ l} p := by
  cases hf : l.find? (h ≤ ·) with
  | some p' =>
    rw [nextIn, hf, Option.some_or, Option.some.injEq] at hp
    exact hp ▸ isNext_of_find? hl hf
  | none =>
    -- every point lies behind: the walk starts over at the least one
    have hlt (q : α) (hq : q ∈ l) : q < h := by simpa using List.find?_eq_none.mp hf q hq
    rw [nextIn, hf, Option.none_or] at hp
    obtain ⟨rest, rfl⟩ := List.head?_eq_some_iff.mp hp
    refine ⟨List.mem_cons_self, fun q hq => .inr ⟨?_, ?_⟩⟩
    · exact iff_of_false (hlt p List.mem_cons_self).not_ge (hlt q hq).not_ge
    · cases List.mem_cons.mp hq with
      | inl he => exact he.ge
      | inr hq => exact (List.pairwise_cons.mp hl).1 q hq

end DistSync
