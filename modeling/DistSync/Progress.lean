import Mathlib.Logic.Relation
import DistSync.Run

/-! What a system can still do: states to which steps lead that meet a guard, and two ways to
get on, by a number that falls and through a list of things to do. And what happens at the latest
after so many turns, whatever else a system does between them. -/
namespace DistSync.System
variable {σ α : Type} (M : System σ α) (guard : σ → α → Prop)

def Next (s t : σ) : Prop := ∃ a, guard s a ∧ M.step s a = some t

/-- Steps each of which satisfies `guard` beforehand lead from `s` to `t`. -/
abbrev Leads : σ → σ → Prop := Relation.ReflTransGen (M.Next guard)

variable {M guard} {s t : σ}

theorem Leads.of_step {a : α} (ha : guard s a) (hs : M.step s a = some t) : M.Leads guard s t :=
  .single ⟨a, ha, hs⟩

theorem Leads.kept {I : σ → Prop} (hk : ∀ s a t, I s → guard s a → M.step s a = some t → I t)
    (hl : M.Leads guard s t) (h : I s) : I t := by
  induction hl with
  | refl => exact h
  | tail _ hstep ih =>
    obtain ⟨a, ha, hs⟩ := hstep
    exact hk _ a _ ih ha hs

theorem Reach.leads (h : M.Reach guard s) (hl : M.Leads guard s t) : M.Reach guard t :=
  hl.kept (fun _ _ _ => Reach.step) h

theorem Leads.reachable (hl : M.Leads guard s t) (h : M.Reachable s) : M.Reachable t :=
  hl.kept (fun _ _ _ hr _ => Reach.step hr trivial) h

theorem Leads.mono {guard' : σ → α → Prop} (hg : ∀ s a, guard s a → guard' s a)
    (hl : M.Leads guard s t) : M.Leads guard' s t :=
  Relation.ReflTransGen.mono (fun _ _ h => h.imp fun _ ha => ha.imp_left (hg _ _)) _ _ hl

theorem Leads.of_runIf [∀ s a, Decidable (guard s a)] {as : List α}
    (hr : M.runIf guard s as = some t) : M.Leads guard s t := by
  induction as generalizing s with
  | nil =>
    cases hr
    exact .refl
  | cons a as ih =>
    simp only [System.runIf] at hr
    split at hr
    · rename_i ha
      obtain ⟨u, hu, hr⟩ := Option.bind_eq_some_iff.mp hr
      exact .head ⟨a, ha, hu⟩ (ih hr)
    · cases hr

/-- Whoever can either finish or make the number smaller, can finish. -/
theorem Leads.descend {P Q : σ → Prop} (μ : σ → Nat)
    (h : ∀ s, P s → ∃ t, M.Leads guard s t ∧ (Q t ∨ P t ∧ μ t < μ s)) {s : σ} (hs : P s) :
    ∃ t, M.Leads guard s t ∧ Q t := by
  induction hn : μ s using Nat.strongRecOn generalizing s with
  | ind n ih =>
    obtain ⟨t, hst, ht⟩ := h s hs
    cases ht with
    | inl ht => exact ⟨t, hst, ht⟩
    | inr ht =>
      obtain ⟨u, htu, hu⟩ := ih (μ t) (hn ▸ ht.2) ht.1 rfl
      exact ⟨u, hst.trans htu, hu⟩

theorem Leads.through {ι : Type} {P : List ι → σ → Prop}
    (h : ∀ i todo s, P (i :: todo) s → ∃ t, M.Leads guard s t ∧ P todo t) {todo : List ι} {s : σ}
    (hs : P todo s) : ∃ t, M.Leads guard s t ∧ P [] t := by
  induction todo generalizing s with
  | nil => exact ⟨s, .refl, hs⟩
  | cons i todo ih =>
    obtain ⟨t, hst, ht⟩ := h i todo s hs
    obtain ⟨u, htu, hu⟩ := ih ht
    exact ⟨u, hst.trans htu, hu⟩

variable (M) in
/-- How many actions of a run are turns. -/
def turns (turn : σ → α → Prop) [∀ s a, Decidable (turn s a)] (s : σ) : List α → Nat
  | [] => 0
  | a :: as =>
    (if turn s a then 1 else 0) + ((M.step s a).map fun t => turns turn t as).getD 0

/-- Where no step raises the number and each turn lowers it, `P` is reached after so many turns. -/
theorem goal_of_turns {turn : σ → α → Prop} [∀ s a, Decidable (turn s a)] {I P : σ → Prop}
    (rank : σ → Nat) (hpos : ∀ s, I s → 0 < rank s)
    (hkept : ∀ s a t, P s → M.step s a = some t → P t)
    (hs : ∀ s a t, I s → guard s a → M.step s a = some t →
      P t ∨ I t ∧ rank t + (if turn s a then 1 else 0) ≤ rank s)
    {as : List α} (h : I s) (hg : M.Along (fun s a _ => guard s a) s as)
    (hr : M.run s as = some t) (hn : rank s ≤ M.turns turn s as) : P t := by
  induction as generalizing s with
  | nil => exact absurd hn (Nat.not_le_of_lt (hpos s h))
  | cons a as ih =>
    obtain ⟨u, hu, hr⟩ := Option.bind_eq_some_iff.mp hr
    obtain ⟨ha, has⟩ := hg u hu
    cases hs s a u h ha hu with
    | inl hgoal =>
      exact run_kept (P := fun _ => True) (fun s a t hs _ => hkept s a t hs) hgoal (by simp) hr
    | inr hstep =>
      refine ih hstep.1 has hr ?_
      rw [turns, hu, Option.map_some, Option.getD_some] at hn
      omega

end DistSync.System
