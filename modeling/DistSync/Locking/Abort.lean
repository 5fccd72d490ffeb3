import DistSync.Locking.Deadlock
import DistSync.Locking.Holdings

/-! The end of a deadlock. Only holders are waited for, as a release drops all edges of its
client; so the victim holds something, and when it has lost that the cycle is gone. -/
namespace DistSync.Locking
variable {Client Resource Request : Type}
  [DecidableEq Client] [DecidableEq Resource] [DecidableEq Request]
variable {m : LockManager Client Resource Request} {T : Table Client Resource Request}
  {now : Rat} {r : Resource} {a b victim : Client}

/-- An order in which `_abort_client` may go through the client's locks. -/
structure LockManager.AbortOrder (m : LockManager Client Resource Request) (client : Client)
    (rs : List Resource) : Prop where
  mem : ∀ r, r ∈ rs ↔ r ∈ m.clientLocks client
  nodup : rs.Nodup

/-- The `lock_abort` commands of `_abort_client` are applied, each at its time. -/
def LockManager.abortAll (m : LockManager Client Resource Request) (client : Client) :
    List (Rat × Resource) → LockManager Client Resource Request
  | [] => m
  | (now, r) :: rs => (m.applyCommand now (.abort client r)).abortAll client rs

def LockManager.HoldersAwaited (m : LockManager Client Resource Request) : Prop :=
  ∀ a b, b ∈ m.wfg.edges a → ∃ r, m.Holds b r

def WaitForGraph.Isolated (g : WaitForGraph Client) (c : Client) : Prop :=
  ∀ a, c ∉ g.edges a ∧ a ∉ g.edges c

section Step
variable (h : Refines m T)
include h

theorem Refines.edges_release (now : Rat) (client : Client) (r : Resource)
    (hb : b ∈ (m.applyRelease now client r).wfg.edges a) : b ∈ m.wfg.edges a := by
  cases hT : T r with
  | none => rwa [h.release_free client hT] at hb
  | some k => exact ((h.release now client hT).2.1 a b |>.mp hb).2.2.2

theorem Refines.holdersAwaited_apply (hm : m.HoldersAwaited) (now : Rat)
    (cmd : LockCommand Client Resource Request) : (m.applyCommand now cmd).HoldersAwaited := by
  intro a b hb
  have hkept (hold : b ∈ m.wfg.edges a) (hfrees : ∀ r, T.Holds b r → ¬ cmd.Frees b r) :
      ∃ r, (m.applyCommand now cmd).Holds b r := by
    obtain ⟨r, hr⟩ := hm a b hold
    have hr := h.holds_iff.mp hr
    exact ⟨r, (h.apply now cmd).holds_iff.mpr (Table.holds_apply.mpr (.inl ⟨hr, hfrees r hr⟩))⟩
  have hrelease (client : Client) (r : Resource)
      (hb : b ∈ (m.applyRelease now client r).wfg.edges a) (r' : Resource) (hr' : T.Holds b r') :
      ¬ (client = b ∧ r = r') := by
    rintro ⟨rfl, rfl⟩
    obtain ⟨k, hk, -⟩ := hr'
    exact ((h.release now client hk).2.1 a client |>.mp hb).2.2.1 rfl
  cases cmd with
  | acquire req =>
    have hedge := (h.acquire_edges now req a b).mp hb
    split at hedge
    · exact hkept hedge.2 fun _ _ => id
    · cases hedge with
      | inl hnew =>
        obtain ⟨-, k, hk, hbk⟩ := hnew
        refine ⟨req.resourceId, (h.apply now _).holds_iff.mpr (Table.holds_apply.mpr (.inl ?_))⟩
        exact ⟨⟨k, hk, hbk⟩, id⟩
      | inr hold => exact hkept hold fun _ _ => id
  | release client r => exact hkept (h.edges_release now client r hb) (hrelease client r hb)
  | cancel q client r =>
    refine hkept ?_ fun _ _ => id
    simpa [LockManager.applyCommand, LockManager.applyCancel] using hb
  | abort client r => exact hkept (h.edges_release now client r hb) (hrelease client r hb)

theorem Refines.edges_abortAll (rs : List (Rat × Resource))
    (hb : b ∈ (m.abortAll victim rs).wfg.edges a) : b ∈ m.wfg.edges a := by
  induction rs generalizing m T with
  | nil => exact hb
  | cons e rs ih => exact h.edges_release e.1 victim e.2 (ih (h.apply e.1 (.abort victim e.2)) hb)

/-- The first abort of a lock that the victim holds takes all its edges away. -/
theorem Refines.isolated_abortAll {e : Rat × Resource} (he : m.Holds victim e.2)
    (rs : List (Rat × Resource)) : (m.abortAll victim (e :: rs)).wfg.Isolated victim := by
  obtain ⟨k, hk, -⟩ := h.holds_iff.mp he
  have hedges := (h.release e.1 victim hk).2.1
  have hnext := h.apply e.1 (.abort victim e.2)
  intro a
  constructor
  · intro hb
    exact ((hedges a victim).mp (hnext.edges_abortAll rs hb)).2.2.1 rfl
  · intro hb
    exact ((hedges victim a).mp (hnext.edges_abortAll rs hb)).2.1 rfl

end Step

theorem holdersAwaited_reach (h : (manager Client Resource Request).Reachable m) :
    m.HoldersAwaited := by
  refine h.invariant (I := fun m => m.HoldersAwaited) (fun a b hb => by cases hb)
    fun s cmd t hr hm _ hs => ?_
  obtain ⟨T, hT⟩ := exists_refines hr
  cases hs
  exact hT.holdersAwaited_apply hm cmd.1 cmd.2

theorem WaitForGraph.IsCycle.exists_edge {g : WaitForGraph Client} {cycle : List Client}
    (h : g.IsCycle cycle) {c : Client} (hc : c ∈ cycle) : ∃ a, c ∈ g.edges a := by
  obtain ⟨i, hi, rfl⟩ := List.getElem_of_mem hc
  cases i with
  | zero =>
    refine ⟨cycle.getLast h.ne_nil, h.closed _ (List.getLast?_eq_some_getLast h.ne_nil) _ ?_⟩
    rw [Option.mem_def, List.head?_eq_getElem?, List.getElem?_eq_getElem hi]
  | succ i => exact ⟨cycle[i], List.isChain_iff_getElem.mp h.chain i hi⟩

theorem WaitForGraph.Isolated.not_isCycle {g : WaitForGraph Client} {cycle : List Client}
    (h : g.Isolated victim) (hv : getVictim cycle = some victim) : ¬ g.IsCycle cycle := by
  intro hc
  have hclosed := hc.closed victim hv (cycle.head hc.ne_nil) (List.head?_eq_some_head hc.ne_nil)
  exact (h _).2 hclosed

/-- The victim of a reported cycle holds something, and once its locks are aborted no edge
starts or ends at it, so the cycle is gone. -/
theorem abortAll_breaksCycle (h : (manager Client Resource Request).Reachable m)
    (order : Client → List Client) (ho : m.wfg.Enumerates order) (cycle : List Client)
    (hd : m.wfg.detectCycle order = some cycle) :
    ∃ victim, WaitForGraph.getVictim cycle = some victim ∧ (∃ r, m.Holds victim r) ∧
      ∀ rs : List (Rat × Resource), m.AbortOrder victim (rs.map Prod.snd) →
        (m.abortAll victim rs).wfg.Isolated victim ∧
          ¬ (m.abortAll victim rs).wfg.IsCycle cycle := by
  obtain ⟨T, href, hbooks⟩ := books_reach h
  have hc := WaitForGraph.isCycle_of_detectCycle ho hd
  have hv : WaitForGraph.getVictim cycle = some (cycle.getLast hc.ne_nil) :=
    List.getLast?_eq_some_getLast hc.ne_nil
  have hmem : cycle.getLast hc.ne_nil ∈ cycle := List.getLast_mem hc.ne_nil
  generalize cycle.getLast hc.ne_nil = victim at hv hmem
  have hholds : ∃ r, m.Holds victim r := by
    obtain ⟨a, ha⟩ := hc.exists_edge hmem
    exact holdersAwaited_reach h a victim ha
  refine ⟨victim, hv, hholds, fun rs hrs => ?_⟩
  have hisolated : (m.abortAll victim rs).wfg.Isolated victim := by
    cases rs with
    | nil =>
      obtain ⟨r, hr⟩ := hholds
      cases (hrs.mem r).mpr ((hbooks victim r).mpr (href.holds_iff.mp hr))
    | cons e rs =>
      refine href.isolated_abortAll (href.holds_iff.mpr ((hbooks victim e.2).mp ?_)) rs
      exact (hrs.mem e.2).mp List.mem_cons_self
  exact ⟨hisolated, hisolated.not_isCycle hv⟩

theorem abortAll_breaksCycle_crossed : ∃ m, (manager Nat Nat Nat).run (manager Nat Nat Nat).init
    crossed = some m ∧ m.wfg.detectCycle (byNumber m.wfg) = some [0, 1] ∧
    WaitForGraph.getVictim [0, 1] = some 1 ∧ m.AbortOrder 1 [1] ∧
    (m.abortAll 1 [(4, 1)]).wfg.Isolated 1 ∧ ¬ (m.abortAll 1 [(4, 1)]).wfg.IsCycle [0, 1] := by
  have hrun : ((manager Nat Nat Nat).run (manager Nat Nat Nat).init crossed).any (fun m =>
      m.wfg.detectCycle (byNumber m.wfg) = some [0, 1] ∧ m.clientLocks 1 = {1}) = true := by
    decide +kernel
  obtain ⟨m, hm, hh⟩ := (Option.any_eq_true ..).mp hrun
  obtain ⟨hd, hlocks⟩ := of_decide_eq_true hh
  have horder : m.AbortOrder 1 [1] := ⟨fun r => by simp [hlocks], List.nodup_singleton 1⟩
  obtain ⟨victim, hv, -, hgone⟩ := abortAll_breaksCycle (System.reachable_run hm) (byNumber m.wfg)
    (enumerates_byNumber m.wfg) [0, 1] hd
  cases hv
  exact ⟨m, hm, hd, rfl, horder, hgone [(4, 1)] horder⟩

end DistSync.Locking
