import Mathlib.Algebra.Order.Ring.Rat
import Mathlib.Tactic.Linarith
import DistSync.Locking.Checker
import DistSync.Locking.Patience

/-! What the timeout checker achieves alone. Even if no client ever gives anything back, each pass
of the checker that finds a lock expired and carries its list through brings those who wait for
the lock closer, until they are granted it. -/
namespace DistSync.Locking
variable {Client Resource Request : Type}
  [DecidableEq Client] [DecidableEq Resource] [DecidableEq Request]
variable {req : LockRequest Client Resource Request} {G A : Nat}

section Manager
variable {m : LockManager Client Resource Request} {c : Rat × LockCommand Client Resource Request}

/-- The request has been granted more than `G` times, or it waits with at most `A` before it. -/
def LockManager.Nears (m : LockManager Client Resource Request)
    (req : LockRequest Client Resource Request) (G A : Nat) : Prop :=
  (∃ T, Refines m T) ∧ (G < m.grantedRequests.count req ∨
    m.Awaits req ∧ G ≤ m.grantedRequests.count req ∧ m.ahead req ≤ A)

theorem LockManager.Nears.granted (h : m.Nears req G 0) : G < m.grantedRequests.count req := by
  refine h.2.resolve_right fun hw => ?_
  obtain ⟨⟨T, hT, k, hk, -⟩, -, hle⟩ := hw
  exact absurd (hT.ahead hk ▸ k.ahead_pos) hle.not_gt

theorem LockManager.Nears.apply (h : m.Nears req G A) (hp : m.Patient req c) :
    (m.applyCommand c.1 c.2).Nears req G
      (A - if m.HandsBack req.resourceId c then 1 else 0) := by
  obtain ⟨⟨T, hT⟩, h⟩ := h
  refine ⟨⟨_, hT.apply c.1 c.2⟩, ?_⟩
  cases h with
  | inl hg =>
    left
    rw [hT.grants, List.count_append]
    omega
  | inr hw =>
    obtain ⟨⟨T, hT, k, hk, hw⟩, hG, hA⟩ := hw
    have hT' := hT.apply c.1 c.2
    rw [hT.grants, List.count_append, List.count_reverse]
    rw [hT.ahead hk] at hA
    cases hT.closer hk hw hp with
    | inl hgrant =>
      have hpos := List.count_pos_iff.mpr hgrant
      exact .inl (by omega)
    | inr hcloser =>
      obtain ⟨k', hk', hw', hle⟩ := hcloser
      refine .inr ⟨⟨_, hT', k', hk', hw'⟩, by omega, ?_⟩
      rw [hT'.ahead hk']
      omega

theorem LockManager.Nears.mono {B : Nat} (h : m.Nears req G A) (hle : A ≤ B) :
    m.Nears req G B :=
  ⟨h.1, h.2.imp_right fun hw => ⟨hw.1, hw.2.1, hw.2.2.trans hle⟩⟩

theorem LockManager.Nears.holds (h : m.Nears req G A) {client : Client} {r : Resource}
    (hc : m.Holds client r) (hb : ¬ m.HandsBack r c) :
    (m.applyCommand c.1 c.2).Holds client r := by
  obtain ⟨⟨T, hT⟩, -⟩ := h
  rw [(hT.apply c.1 c.2).holds_iff, Table.holds_apply, ← hT.holds_iff]
  refine .inl ⟨hc, fun hf => hb ?_⟩
  obtain ⟨now, cmd⟩ := c
  cases cmd with
  | acquire q => exact hf.elim
  | cancel q client' r' => exact hf.elim
  | release client' r' =>
    obtain ⟨rfl, rfl⟩ := hf
    exact ⟨rfl, hc⟩
  | abort client' r' =>
    obtain ⟨rfl, rfl⟩ := hf
    exact ⟨rfl, hc⟩

end Manager

variable {s t : CheckedManager Client Resource Request}
  {a : CheckerAction Client Resource Request}

/-- Nobody overtakes the request or gives it up, and the checker leads when it has to. -/
def Undisturbed (req : LockRequest Client Resource Request)
    (s : CheckedManager Client Resource Request) : CheckerAction Client Resource Request → Prop
  | .apply now command => s.manager.Patient req (now, command)
  | .skip => False
  | _ => True

instance (req : LockRequest Client Resource Request)
    (s : CheckedManager Client Resource Request) :
    (a : CheckerAction Client Resource Request) → Decidable (Undisturbed req s a)
  | .apply _ _ => inferInstanceAs (Decidable (LockManager.Patient _ _ _))
  | .skip => .isFalse id
  | .check _ _ | .propose | .release _ _ => .isTrue trivial

def CheckedManager.pending (s : CheckedManager Client Resource Request) :
    List (Expired Client Resource) :=
  s.expired ++ s.proposed

/-- A pass of the checker that finds the lock of the request expired and goes through with all that
it has found; other actions come before it and in between. -/
inductive CheckerPass (req : LockRequest Client Resource Request)
    (s t : CheckedManager Client Resource Request) : Prop
  | check (u v : CheckedManager Client Resource Request) (now : Rat)
    (order : Finset Client → List Client)
    (hbefore : (checker Client Resource Request).Leads (Undisturbed req) s u)
    (hexpired : ∀ l ∈ u.manager.locks.get? req.resourceId, l.isExpired now)
    (horder : ∀ h : Finset Client, ∀ c ∈ h, c ∈ order h)
    (hcheck : (checker Client Resource Request).step u (.check now order) = some v)
    (hafter : (checker Client Resource Request).Leads (Undisturbed req) v t)
    (hdone : t.pending = [])

theorem checker_cases (hu : Undisturbed req s a)
    (hs : (checker Client Resource Request).step s a = some t) :
    (t.manager = s.manager ∧ ∀ x ∈ s.pending, x ∈ t.pending) ∨
      ∃ c, s.manager.Patient req c ∧ t.manager = s.manager.applyCommand c.1 c.2 ∧
        ∀ x ∈ s.pending, x ∈ t.pending ∨ c.2 = .release x.clientId x.resourceId := by
  cases a with
  | apply now cmd =>
    cases hs
    exact .inr ⟨_, hu, rfl, fun x hx => .inl hx⟩
  | check now order =>
    obtain ⟨he, hs⟩ := Option.ite_none_right_eq_some.mp hs
    cases hs
    refine .inl ⟨rfl, fun x hx => List.mem_append_right _ ?_⟩
    rwa [CheckedManager.pending, he] at hx
  | propose =>
    simp only [checker] at hs
    split at hs <;> cases hs
    rename_i x xs he
    refine .inl ⟨rfl, fun y hy => ?_⟩
    simp only [CheckedManager.pending, he, List.mem_append, List.mem_cons,
      List.not_mem_nil, or_false] at hy ⊢
    tauto
  | skip => exact hu.elim
  | release now k =>
    simp only [checker] at hs
    split at hs
    · cases hs
    · rename_i x hk
      cases hs
      refine .inr ⟨(now, .release x.clientId x.resourceId), trivial, rfl, fun y hy => ?_⟩
      cases List.mem_append.mp hy with
      | inl hy => exact .inl (List.mem_append_left _ hy)
      | inr hy =>
        obtain ⟨i, hi⟩ := List.mem_iff_getElem?.mp hy
        by_cases hik : i = k
        · rw [hik] at hi
          cases hi.symm.trans hk
          exact .inr rfl
        · exact .inl (List.mem_append_right _ (List.mem_eraseIdx_iff_getElem?.mpr ⟨i, hik, hi⟩))

theorem LockManager.Nears.leads (h : s.manager.Nears req G A)
    (hl : (checker Client Resource Request).Leads (Undisturbed req) s t) :
    t.manager.Nears req G A := by
  refine hl.kept (I := fun s => s.manager.Nears req G A) (fun s a t hi ha hs => ?_) h
  rcases checker_cases ha hs with ⟨hm, -⟩ | ⟨c, hp, hm, -⟩ <;> rw [hm]
  · exact hi
  · exact (hi.apply hp).mono (Nat.sub_le _ _)

/-- A holder whose release is pending hands the resource back, at the latest by that. -/
theorem nears_of_pending {client : Client} (h : s.manager.Nears req G A)
    (hc : s.manager.Holds client req.resourceId)
    (hx : ∃ x ∈ s.pending, x.clientId = client ∧ x.resourceId = req.resourceId)
    (hl : (checker Client Resource Request).Leads (Undisturbed req) s t) (hdone : t.pending = []) :
    t.manager.Nears req G (A - 1) := by
  have hend : t.manager.Nears req G (A - 1) ∨ t.manager.Nears req G A ∧
      t.manager.Holds client req.resourceId ∧
      ∃ x ∈ t.pending, x.clientId = client ∧ x.resourceId = req.resourceId := by
    refine hl.kept (I := fun s => s.manager.Nears req G (A - 1) ∨ s.manager.Nears req G A ∧
      s.manager.Holds client req.resourceId ∧
      ∃ x ∈ s.pending, x.clientId = client ∧ x.resourceId = req.resourceId)
      (fun s a t hi ha hs => ?_) (.inr ⟨h, hc, hx⟩)
    rcases hi with hi | ⟨h, hc, x, hmem, rfl, hres⟩
    · exact .inl (hi.leads (.of_step ha hs))
    · rcases checker_cases ha hs with ⟨hm, hkeep⟩ | ⟨c, hp, hm, hkeep⟩ <;> rw [hm]
      · exact .inr ⟨h, hc, x, hkeep x hmem, rfl, hres⟩
      · have hnears := h.apply hp
        by_cases hb : s.manager.HandsBack req.resourceId c
        · rw [if_pos hb] at hnears
          exact .inl hnears
        · rw [if_neg hb] at hnears
          refine .inr ⟨hnears, h.holds hc hb, x, (hkeep x hmem).resolve_right fun hrel => ?_, rfl,
            hres⟩
          obtain ⟨now, cmd⟩ := c
          cases hrel
          exact hb ⟨hres, hc⟩
  refine hend.resolve_right fun hp => ?_
  obtain ⟨-, -, x, hx, -⟩ := hp
  rw [hdone] at hx
  cases hx

theorem CheckerPass.nears (hp : CheckerPass req s t) (h : s.manager.Nears req G A) :
    t.manager.Nears req G (A - 1) := by
  cases hp with
  | check u v now order hbefore hexp horder hcheck hafter hdone =>
    have hu := h.leads hbefore
    obtain ⟨-, hv⟩ := Option.ite_none_right_eq_some.mp hcheck
    cases hv
    rcases hu.2 with hg | ⟨⟨T, hT, k, hk, -⟩, -⟩
    · exact LockManager.Nears.leads (s := { u with expired := u.manager.expired now order })
        ⟨hu.1, .inl hg⟩ hafter
    · obtain ⟨client, hc⟩ := k.held
      obtain ⟨l, hl, hs⟩ := hT.held _ k hk
      have hholder : client ∈ l.holderIds := hs.holders ▸ hc
      let x : Expired Client Resource := ⟨client, req.resourceId, u.manager.history.length⟩
      have hfound : x ∈ u.manager.expired now order := by
        refine List.mem_flatMap.mpr ⟨(req.resourceId, l), Dict.get?_eq_some.mp hl, ?_⟩
        rw [if_pos ⟨hexp l hl, Finset.ne_empty_of_mem hholder⟩]
        exact List.mem_map_of_mem (horder _ client hholder)
      exact nears_of_pending (s := { u with expired := u.manager.expired now order }) hu
        ⟨l, hl, hholder⟩
        ⟨x, List.mem_append_left _ hfound, rfl, rfl⟩ hafter hdone

theorem leads_done (req : LockRequest Client Resource Request)
    (s : CheckedManager Client Resource Request) :
    ∃ t, (checker Client Resource Request).Leads (Undisturbed req) s t ∧ t.pending = [] := by
  refine System.Leads.descend (P := fun _ => True)
    (fun s => 2 * s.expired.length + s.proposed.length) (fun s _ => ?_) trivial
  obtain ⟨m, expired, proposed⟩ := s
  cases expired with
  | cons x xs =>
    refine ⟨⟨m, xs, proposed ++ [x]⟩, .of_step (a := .propose) trivial rfl, .inr ⟨trivial, ?_⟩⟩
    simp only [List.length_cons, List.length_append, List.length_nil]
    omega
  | nil =>
    cases proposed with
    | nil => exact ⟨_, .refl, .inl rfl⟩
    | cons x xs =>
      exact ⟨_, .of_step (a := .release 0 0) trivial rfl, .inr ⟨trivial, Nat.lt_succ_self _⟩⟩

/-- From every state there is such a pass, without any other command. -/
theorem exists_checkerPass (req : LockRequest Client Resource Request)
    (s : CheckedManager Client Resource Request) : ∃ t, CheckerPass req s t := by
  obtain ⟨u, hu, hempty⟩ := leads_done req s
  let lock := u.manager.locks.get? req.resourceId
  let now := (lock.map fun l => l.acquiredAt + l.timeout + 1).getD 0
  have hexpired : ∀ l ∈ u.manager.locks.get? req.resourceId, l.isExpired now := by
    intro l hl
    have hnow : now = l.acquiredAt + l.timeout + 1 := by
      simp only [now, lock, Option.mem_def.mp hl, Option.map_some, Option.getD_some]
    unfold Lock.isExpired
    linarith
  have hcheck : (checker Client Resource Request).step u (.check now Finset.toList) = some _ :=
    if_pos (List.append_eq_nil_iff.mp hempty).1
  obtain ⟨t, ht, hdone⟩ := leads_done req _
  exact ⟨t, .check u _ now _ hu hexpired (fun h c => Finset.mem_toList.mpr) hcheck ht hdone⟩

/-- The timeout checker alone gets a waiting request granted, whatever its holders do: there is
always a pass that finds the lock of the request expired and goes through with all that it has
found, and where nobody overtakes the request it is granted after at most as many of them as there
are holders now and requests before it. -/
theorem checkerPasses_grant (h : (checker Client Resource Request).Reachable s)
    (hw : req ∈ s.manager.waitersOf req.resourceId) :
    (∃ t, CheckerPass req s t) ∧ ∀ ss : List (CheckedManager Client Resource Request),
      (s :: ss).IsChain (CheckerPass req) → s.manager.ahead req ≤ ss.length →
      s.manager.grantedRequests.count req <
        ((s :: ss).getLast (List.cons_ne_nil s ss)).manager.grantedRequests.count req := by
  refine ⟨exists_checkerPass req s, fun ss hp hn => ?_⟩
  obtain ⟨T, hT, -⟩ := heldBy_reach h
  have hstart : s.manager.Nears req (s.manager.grantedRequests.count req) ss.length :=
    ⟨⟨T, hT⟩, .inr ⟨hT.awaits hw, le_rfl, hn⟩⟩
  generalize s.manager.grantedRequests.count req = G at hstart ⊢
  clear h hw hn hT
  induction ss generalizing s with
  | nil => exact hstart.granted
  | cons t ss ih =>
    obtain ⟨hpass, hrest⟩ := List.isChain_cons_cons.mp hp
    exact ih hrest (hpass.nears hstart)

theorem checkerPasses_grant_inLine : ∃ s t u,
    (checker Nat Nat Nat).run (checker Nat Nat Nat).init
        (inLine.map fun c => .apply c.1 c.2) = some s ∧
      CheckerPass ⟨2, 2, 0, .shared, 30⟩ s t ∧ CheckerPass ⟨2, 2, 0, .shared, 30⟩ t u ∧
      s.manager.grantedRequests.count ⟨2, 2, 0, .shared, 30⟩ <
        u.manager.grantedRequests.count ⟨2, 2, 0, .shared, 30⟩ := by
  have hrun : ((checker Nat Nat Nat).run (checker Nat Nat Nat).init
      (inLine.map fun c => .apply c.1 c.2)).any (fun s =>
        ⟨2, 2, 0, .shared, 30⟩ ∈ s.manager.waitersOf 0 ∧
          s.manager.ahead ⟨2, 2, 0, .shared, 30⟩ = 2) = true := by
    decide
  obtain ⟨s, hs, hw⟩ := (Option.any_eq_true ..).mp hrun
  obtain ⟨hw, hahead⟩ := of_decide_eq_true hw
  obtain ⟨⟨t, ht⟩, hgrant⟩ := checkerPasses_grant (System.reachable_run hs) hw
  obtain ⟨u, hu⟩ := exists_checkerPass ⟨2, 2, 0, .shared, 30⟩ t
  exact ⟨s, t, u, hs, ht, hu, hgrant [t, u] (.cons_cons ht (.cons_cons hu (.singleton u)))
    hahead.le⟩

end DistSync.Locking
