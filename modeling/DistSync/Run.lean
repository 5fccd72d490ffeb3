import Mathlib.Data.List.Induction

/-! Transition systems whose actions may be disabled, runs of them as lists of
actions, and induction over runs all of whose steps meet a guard. -/
namespace DistSync

structure System (σ α : Type) where
  init : σ
  step : σ → α → Option σ

namespace System
variable {σ α : Type} (M : System σ α)

def run (s : σ) : List α → Option σ
  | [] => some s
  | a :: as => (M.step s a).bind fun t => run t as

/-- Every step of the run of `as` from `s` satisfies `P`. -/
def Along (P : σ → α → σ → Prop) (s : σ) : List α → Prop
  | [] => True
  | a :: as => ∀ t, M.step s a = some t → P s a t ∧ Along P t as

instance decidableAlong (P : σ → α → σ → Prop) [∀ s a t, Decidable (P s a t)] (s : σ) :
    (as : List α) → Decidable (M.Along P s as)
  | [] => isTrue trivial
  | a :: as =>
    match h : M.step s a with
    | none => isTrue fun t ht => by cases h.symm.trans ht
    | some u =>
      have := decidableAlong P u as
      decidable_of_iff (P s a u ∧ M.Along P u as)
        ⟨fun hp t ht => by cases h.symm.trans ht; exact hp, fun hp => hp u h⟩

def runIf (guard : σ → α → Prop) [∀ s a, Decidable (guard s a)] (s : σ) : List α → Option σ
  | [] => some s
  | a :: as => if guard s a then (M.step s a).bind fun t => runIf guard t as else none

/-- States reached by runs each of whose steps satisfies `guard` beforehand. -/
inductive Reach (guard : σ → α → Prop) : σ → Prop
  | init : Reach guard M.init
  | step {s t : σ} {a : α} : Reach guard s → guard s a → M.step s a = some t → Reach guard t

abbrev Reachable (s : σ) : Prop := M.Reach (fun _ _ => True) s

variable {M} {guard guard' : σ → α → Prop}

theorem Reach.mono (hg : ∀ s a, guard s a → guard' s a) {s : σ} (h : M.Reach guard s) :
    M.Reach guard' s := by
  induction h with
  | init => exact .init
  | step _ ha hs ih => exact .step ih (hg _ _ ha) hs

theorem Reach.reachable {s : σ} (h : M.Reach guard s) : M.Reachable s :=
  h.mono fun _ _ _ => trivial

theorem Reach.run {s t : σ} {as : List α} (h : M.Reach guard s)
    (hg : M.Along (fun s a _ => guard s a) s as) (hr : M.run s as = some t) : M.Reach guard t := by
  induction as generalizing s with
  | nil =>
    cases hr
    exact h
  | cons a as ih =>
    obtain ⟨u, hu, hr⟩ := Option.bind_eq_some_iff.mp hr
    obtain ⟨ha, has⟩ := hg u hu
    exact ih (.step h ha hu) has hr

theorem along_trivial (s : σ) (as : List α) : M.Along (fun _ _ _ => True) s as := by
  induction as generalizing s with
  | nil => trivial
  | cons a as ih => exact fun t _ => ⟨trivial, ih t⟩

theorem along_of_mem {P : α → Prop} {as : List α} (h : ∀ a ∈ as, P a) (s : σ) :
    M.Along (fun _ a _ => P a) s as := by
  induction as generalizing s with
  | nil => trivial
  | cons a as ih =>
    obtain ⟨ha, has⟩ := List.forall_mem_cons.mp h
    exact fun t _ => ⟨ha, ih has t⟩

theorem reachable_run {t : σ} {as : List α} (hr : M.run M.init as = some t) : M.Reachable t :=
  Reach.run .init (along_trivial _ _) hr

theorem Reach.runIf [∀ s a, Decidable (guard s a)] {s t : σ} {as : List α} (h : M.Reach guard s)
    (hr : M.runIf guard s as = some t) : M.Reach guard t := by
  induction as generalizing s with
  | nil =>
    cases hr
    exact h
  | cons a as ih =>
    simp only [System.runIf] at hr
    split at hr
    · rename_i ha
      obtain ⟨u, hu, hr⟩ := Option.bind_eq_some_iff.mp hr
      exact ih (.step h ha hu) hr
    · cases hr

theorem Reach.invariant {I : σ → Prop} (h0 : I M.init)
    (hs : ∀ s a t, M.Reach guard s → I s → guard s a → M.step s a = some t → I t)
    {s : σ} (h : M.Reach guard s) : I s := by
  induction h with
  | init => exact h0
  | step hr ha ht ih => exact hs _ _ _ hr ih ha ht

/-- An invariant that needs a hypothesis `H` on the past: once `H` holds it held before. -/
theorem Reach.invariant_of_past {H I : σ → Prop}
    (hp : ∀ s a t, M.step s a = some t → H t → H s) (h0 : I M.init)
    (hs : ∀ s a t, M.Reach guard s → H t → I s → M.step s a = some t → I t)
    {s : σ} (h : M.Reach guard s) (hh : H s) : I s := by
  induction h with
  | init => exact h0
  | step hr _ ht ih => exact hs _ _ _ hr hh (ih (hp _ _ _ ht hh)) ht

theorem run_kept {I : σ → Prop} {P : α → Prop}
    (hkept : ∀ s a t, I s → P a → M.step s a = some t → I t) {s t : σ} {as : List α} (h : I s)
    (hP : ∀ a ∈ as, P a) (hr : M.run s as = some t) : I t := by
  induction as generalizing s with
  | nil =>
    cases hr
    exact h
  | cons a as ih =>
    obtain ⟨u, hu, hr⟩ := Option.bind_eq_some_iff.mp hr
    obtain ⟨ha, has⟩ := List.forall_mem_cons.mp hP
    exact ih (hkept s a u h ha hu) has hr

/-- A system each of whose steps is a step of another, or none for it, reaches what that reaches. -/
theorem Reach.simulates {τ β : Type} {N : System τ β} {other : τ → β → Prop} {f : σ → τ}
    (h0 : f M.init = N.init)
    (hs : ∀ s a t, guard s a → M.step s a = some t →
      f t = f s ∨ ∃ b, other (f s) b ∧ N.step (f s) b = some (f t))
    {s : σ} (h : M.Reach guard s) : N.Reach other (f s) := by
  refine h.invariant (I := fun s => N.Reach other (f s)) (h0 ▸ .init) fun s a t _ hr ha ht => ?_
  cases hs s a t ha ht with
  | inl he => rwa [he]
  | inr hb =>
    obtain ⟨b, hb, hstep⟩ := hb
    exact .step hr hb hstep

theorem run_append (s : σ) (as bs : List α) :
    M.run s (as ++ bs) = (M.run s as).bind fun t => M.run t bs := by
  induction as generalizing s with
  | nil => rfl
  | cons a as ih =>
    rw [List.cons_append, run, run, Option.bind_assoc]
    exact congrArg _ (funext fun t => ih t)

theorem along_append {P : σ → α → σ → Prop} (s : σ) (as bs : List α) :
    M.Along P s (as ++ bs) ↔
      M.Along P s as ∧ ∀ t, M.run s as = some t → M.Along P t bs := by
  induction as generalizing s with
  | nil => exact ⟨fun h => ⟨trivial, fun t ht => Option.some.inj ht ▸ h⟩, fun h => h.2 s rfl⟩
  | cons a as ih =>
    constructor
    · intro h
      refine ⟨fun u hu => ⟨(h u hu).1, ((ih u).mp (h u hu).2).1⟩, fun t hr => ?_⟩
      obtain ⟨u, hu, hr⟩ := Option.bind_eq_some_iff.mp hr
      exact ((ih u).mp (h u hu).2).2 t hr
    · intro h u hu
      refine ⟨(h.1 u hu).1, (ih u).mpr ⟨(h.1 u hu).2, fun t hr => h.2 t ?_⟩⟩
      exact Option.bind_eq_some_iff.mpr ⟨u, hu, hr⟩

/-- An invariant that knows what was done before, each time under the guard. -/
theorem run_guarded_invariant {I : List α → σ → Prop} (h0 : I [] M.init)
    (hs : ∀ as a s t, M.Reach guard s → M.run M.init as = some s → I as s → guard s a →
      M.step s a = some t → I (as ++ [a]) t)
    {as : List α} {s : σ} (hg : M.Along (fun s a _ => guard s a) M.init as)
    (hr : M.run M.init as = some s) : I as s := by
  induction as using List.reverseRecOn generalizing s with
  | nil =>
    cases hr
    exact h0
  | append_singleton as a ih =>
    obtain ⟨hbefore, hlast⟩ := (along_append _ _ _).mp hg
    rw [run_append] at hr
    obtain ⟨u, hu, hr⟩ := Option.bind_eq_some_iff.mp hr
    obtain ⟨t, ht, hr⟩ := Option.bind_eq_some_iff.mp hr
    cases hr
    exact hs as a u _ (Reach.run .init hbefore hu) hu (ih hbefore hu) (hlast u hu _ ht).1 ht

theorem run_invariant {I : List α → σ → Prop} (h0 : I [] M.init)
    (hs : ∀ as a s t, M.run M.init as = some s → I as s → M.step s a = some t → I (as ++ [a]) t)
    {as : List α} {s : σ} (hr : M.run M.init as = some s) : I as s :=
  run_guarded_invariant h0 (fun as a s t _ hu h _ => hs as a s t hu h) (along_trivial _ _) hr

theorem run_prefix {s t : σ} {as past : List α} (hr : M.run s as = some t) (hp : past <+: as) :
    ∃ u, M.run s past = some u := by
  obtain ⟨rest, rfl⟩ := hp
  rw [run_append] at hr
  obtain ⟨u, hu, -⟩ := Option.bind_eq_some_iff.mp hr
  exact ⟨u, hu⟩

theorem Along.mono {P Q : σ → α → σ → Prop} (h : ∀ s a t, P s a t → Q s a t) {s : σ} {as : List α}
    (hp : M.Along P s as) : M.Along Q s as := by
  induction as generalizing s with
  | nil => trivial
  | cons a as ih => exact fun t ht => ⟨h s a t (hp t ht).1, ih (hp t ht).2⟩

theorem along_congr {P Q : σ → α → σ → Prop}
    (h : ∀ s a t, M.step s a = some t → (P s a t ↔ Q s a t)) (s : σ) (as : List α) :
    M.Along P s as ↔ M.Along Q s as := by
  induction as generalizing s with
  | nil => exact Iff.rfl
  | cons a as ih =>
    refine forall_congr' fun t => imp_congr_right fun ht => ?_
    exact and_congr (h s a t ht) (ih t)

theorem along_congr_reachable {P Q : σ → α → σ → Prop}
    (h : ∀ s a t, M.Reachable s → M.step s a = some t → (P s a t ↔ Q s a t))
    {s : σ} (hr : M.Reachable s) (as : List α) : M.Along P s as ↔ M.Along Q s as := by
  induction as generalizing s with
  | nil => exact Iff.rfl
  | cons a as ih =>
    refine forall_congr' fun t => imp_congr_right fun ht => ?_
    exact and_congr (h s a t hr ht) (ih (.step hr trivial ht))

/-- Where each step from a state with `I` leaves `I` true exactly if its guard held, a run
keeps `I` true exactly if all its guards hold. -/
theorem along_invariant_iff {I : σ → Prop} {guard : σ → α → Prop}
    (hs : ∀ s a t, M.Reachable s → I s → M.step s a = some t → (I t ↔ guard s a))
    {s : σ} (hr : M.Reachable s) (h : I s) (as : List α) :
    M.Along (fun _ _ t => I t) s as ↔ M.Along (fun s a _ => guard s a) s as := by
  induction as generalizing s with
  | nil => exact Iff.rfl
  | cons a as ih =>
    refine forall_congr' fun t => imp_congr_right fun ht => ?_
    have hiff := hs s a t hr h ht
    constructor
    · intro hp
      exact ⟨hiff.mp hp.1, (ih (.step hr trivial ht) hp.1).mp hp.2⟩
    · intro hp
      have hI := hiff.mpr hp.1
      exact ⟨hI, (ih (.step hr trivial ht) hI).mpr hp.2⟩

/-- Where each step from a state with `I` has `P` exactly if its guard held, and then keeps `I`, a
run has `P` all along exactly if all its guards hold. -/
theorem along_iff_of_kept {I : σ → Prop} {P : σ → α → σ → Prop} {guard : σ → α → Prop}
    (hs : ∀ s a t, I s → M.step s a = some t → (P s a t ↔ guard s a))
    (hk : ∀ s a t, I s → guard s a → M.step s a = some t → I t)
    {s : σ} (h : I s) (as : List α) :
    M.Along P s as ↔ M.Along (fun s a _ => guard s a) s as := by
  induction as generalizing s with
  | nil => exact Iff.rfl
  | cons a as ih =>
    refine forall_congr' fun t => imp_congr_right fun ht => ?_
    have hiff := hs s a t h ht
    constructor
    · intro hp
      have hg := hiff.mp hp.1
      exact ⟨hg, (ih (hk s a t h hg ht)).mp hp.2⟩
    · intro hp
      exact ⟨hiff.mpr hp.1, (ih (hk s a t h hp.1 ht)).mpr hp.2⟩

/-- `M` with an observer beside it, that reads each action and what it is about to change. It may
know more of the actions than `M` does, and forbid some. -/
def watched {β γ : Type} (M : System σ α) (erase : β → α) (start : γ)
    (watch : σ → γ → β → Option γ) : System (σ × γ) β where
  init := (M.init, start)
  step p b := (M.step p.1 (erase b)).bind fun t => (watch p.1 p.2 b).map fun g => (t, g)

section Watched
variable {β γ : Type} {erase : β → α} {start : γ} {watch : σ → γ → β → Option γ}

theorem watched_step {p q : σ × γ} {b : β} :
    (M.watched erase start watch).step p b = some q ↔
      M.step p.1 (erase b) = some q.1 ∧ watch p.1 p.2 b = some q.2 := by
  constructor
  · intro h
    obtain ⟨t, ht, h⟩ := Option.bind_eq_some_iff.mp h
    obtain ⟨g, hg, rfl⟩ := Option.map_eq_some_iff.mp h
    exact ⟨ht, hg⟩
  · rintro ⟨ht, hg⟩
    simp only [watched, ht, hg, Option.bind_some, Option.map_some]

theorem Reach.unwatched {p : σ × γ} (h : (M.watched erase start watch).Reachable p) :
    M.Reachable p.1 := by
  induction h with
  | init => exact .init
  | step _ _ hs ih => exact .step ih trivial (watched_step.mp hs).1

theorem Reach.watched {watch : σ → γ → α → γ} {s : σ} (h : M.Reachable s) :
    ∃ g, (M.watched id start fun s g a => some (watch s g a)).Reachable (s, g) := by
  induction h with
  | init => exact ⟨start, .init⟩
  | step _ _ hs ih =>
    obtain ⟨g, hg⟩ := ih
    exact ⟨_, .step hg trivial (watched_step.mpr ⟨hs, rfl⟩)⟩

end Watched

end System
end DistSync
