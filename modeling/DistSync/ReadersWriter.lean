import Mathlib.Data.List.Basic

/-! Readers and writers. In a legal log of grants and releases, newest first, a grant finds
either nobody who holds or, if it is shared, holders who share. Between two grants that exclude
each other there is then a release by the first one's client. -/
namespace DistSync

inductive Passing (Client : Type) where
  | grant (client : Client) (exclusive : Bool)
  | release (client : Client)

namespace Passing
variable {Client : Type} [DecidableEq Client]

/-- Whether the client holds after the log, and then whether exclusively. -/
def holds : List (Passing Client) → Client → Option Bool
  | [], _ => none
  | .grant d x :: h, c => if d = c then some x else holds h c
  | .release d :: h, c => if d = c then none else holds h c

def Legal : List (Passing Client) → Prop
  | [] => True
  | .grant _ x :: h => Legal h ∧ ∀ c y, holds h c = some y → x = false ∧ y = false
  | .release _ :: h => Legal h

theorem Legal.of_append {l h : List (Passing Client)} (hl : Legal (l ++ h)) : Legal h := by
  induction l with
  | nil => exact hl
  | cons e l ih =>
    cases e with
    | grant d x => exact ih hl.1
    | release d => exact ih hl

theorem Legal.holds {l h : List (Passing Client)} {c : Client} {x : Bool}
    (hl : Legal (l ++ .grant c x :: h)) (hc : .release c ∉ l) :
    ∃ y, holds (l ++ .grant c x :: h) c = some y ∧ (x = true → y = true) := by
  induction l with
  | nil => exact ⟨x, if_pos rfl, id⟩
  | cons e l ih =>
    rw [List.mem_cons, not_or] at hc
    cases e with
    | grant d z =>
      obtain ⟨y, hy, hxy⟩ := ih hl.1 hc.2
      by_cases hd : d = c
      · have hfree := hl.2 c y hy
        refine ⟨z, if_pos hd, fun hx => ?_⟩
        rw [hxy hx] at hfree
        cases hfree.2
      · exact ⟨y, (if_neg hd).trans hy, hxy⟩
    | release d =>
      obtain ⟨y, hy, hxy⟩ := ih hl hc.2
      have hd : d ≠ c := fun hd => hc.1 (hd ▸ rfl)
      exact ⟨y, (if_neg hd).trans hy, hxy⟩

theorem Legal.released_between {l₁ l₂ l₃ : List (Passing Client)} {c d : Client} {x y : Bool}
    (hl : Legal (l₁ ++ .grant d y :: (l₂ ++ .grant c x :: l₃))) (hxy : x = true ∨ y = true) :
    .release c ∈ l₂ := by
  by_contra hc
  have hgrant : Legal (.grant d y :: (l₂ ++ .grant c x :: l₃)) := hl.of_append
  obtain ⟨z, hz, hxz⟩ := hgrant.1.holds hc
  have hshared := hgrant.2 c z hz
  cases hxy with
  | inl hx =>
    rw [hxz hx] at hshared
    cases hshared.2
  | inr hy =>
    rw [hy] at hshared
    cases hshared.1

end Passing
end DistSync
