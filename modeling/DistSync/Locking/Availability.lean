import DistSync.Raft.CatchUp
import DistSync.Locking.Answers
import DistSync.Locking.Patience

/-! What the lock service can still do, as long as the nodes that are up are a quorum. A leader that
has applied its whole log serves one command after the other; so an `acquire` can be committed, the
resource released until its turn has come, and the caller told. -/
namespace DistSync.Raft
open RaftNode
variable {Id Addr Cmd : Type} [DecidableEq Addr]
variable {W : Wiring Id Addr} {s t : Cluster Id Addr Cmd} {x : RaftNode Id Addr Cmd}
  {up : Finset Id}

omit [DecidableEq Addr] in
theorem RaftNode.fresh_le_propose (command : Command Id Cmd) (caller : Caller) :
    x.fresh ≤ (x.propose command caller).fresh := by
  by_cases hx : x.state = .leader
  · rw [propose_of_leader _ hx]
    exact Nat.le_succ _
  · rw [propose_of_not_leader _ hx]

theorem RaftNode.fresh_advanceCommitIndex (x : RaftNode Id Addr Cmd) :
    x.advanceCommitIndex.fresh = x.fresh := by
  cases advanceCommitIndex_cases x with
  | inl he => rw [he]
  | inr hi =>
    obtain ⟨i, -, he⟩ := hi
    rw [he]
    rfl

variable [DecidableEq Id]

theorem fresh_le_step {a : Action Id Cmd} (hs : (raft W Cmd).step s a = some t) (n : Id) :
    (s.nodes n).fresh ≤ (t.nodes n).fresh := by
  have hmove {m : Id} {y : RaftNode Id Addr Cmd} {net : List (Rpc Id Addr Cmd)}
      {evs : List (Event Id Cmd)} (hy : (s.nodes m).fresh ≤ y.fresh) :
      (s.nodes n).fresh ≤ ((s.move m y net evs).nodes n).fresh :=
    move_nodes (P := fun v y => (s.nodes v).fresh ≤ y.fresh) (fun _ => le_rfl) hy n
  cases step_cases hs with
  | election m hx =>
    refine hmove ?_
    by_cases hp : (s.nodes m).peers = []
    · rw [startElection_alone _ hp]
      exact Nat.le_succ _
    · rw [startElection_of_peers _ hp]
      exact le_rfl
  | voteRequest k src peer req dst hk hd =>
    obtain ⟨T, vote, state, hb, -, he⟩ := handleVoteRequest_frame (s.nodes dst) req
    exact hmove (by rw [he])
  | voteResponse k src peer req resp hk =>
    refine hmove ?_
    rcases handleVoteResponse_cases (s.nodes src) resp with
      he | ⟨-, -, he⟩ | ⟨-, -, -, he | ⟨-, he⟩⟩ <;> rw [he]
    · exact le_rfl
    · exact le_rfl
    · exact Nat.le_succ _
  | appendRequest k src origin peer req nextIdx dst hk hd =>
    refine hmove ?_
    cases Nat.lt_or_ge req.term (s.nodes dst).currentTerm with
    | inl hT => rw [handleAppendEntries_old _ hT]
    | inr hT =>
      obtain ⟨log, commit, ok, -, he⟩ := handleAppendEntries_cases (s.nodes dst) hT
      rw [he]
      exact le_rfl
  | appendResponse k src origin peer req nextIdx resp hk ha =>
    refine hmove ?_
    rcases handleAppendEntriesResponse_cases (s.nodes src) peer resp req.entries.length nextIdx with
      ⟨-, he⟩ | he | ⟨-, -, -, he⟩ | ⟨-, -, -, he⟩ <;> rw [he]
    · exact le_rfl
    · rw [fresh_advanceCommitIndex]
      exact le_rfl
  | propose m command => exact hmove (fresh_le_propose ..)
  | finish m k c hk =>
    refine hmove ?_
    rcases finishPropose_cases (s.nodes m) c k with ⟨-, he⟩ | ⟨-, he⟩ <;> rw [he]
    · exact Nat.le_succ _
    · exact le_rfl
  | _ => exact hmove le_rfl

def RaftNode.Resolved (x : RaftNode Id Addr Cmd) (future : Nat) : Prop :=
  ∃ c ∈ x.calls, c.future = future ∧ c.resolved = true

omit [DecidableEq Addr] [DecidableEq Id] in
theorem RaftNode.Promised.resolved {i future : Nat} (h : x.Promised i future)
    (hi : i ≤ x.commitIndex) : x.Resolved future := by
  obtain ⟨c, hc, hf, hr⟩ := h
  exact ⟨c, hc, hf, hr.resolve_right fun hp => hi.not_gt hp.2⟩

omit [DecidableEq Id] in
theorem Continues.resolved {y : RaftNode Id Addr Cmd} (h : Continues x y) {future : Nat}
    (hx : x.Resolved future) : y.Resolved future := by
  obtain ⟨c, hc, hf, hr⟩ := hx
  exact (h.promised 0 future ⟨c, hc, hf, .inl hr⟩).resolved (Nat.zero_le _)

omit [DecidableEq Addr] [DecidableEq Id] in
theorem RaftNode.Resolved.propose {future : Nat} (h : x.Resolved future)
    (command : Command Id Cmd) (caller : Caller) : (x.propose command caller).Resolved future := by
  by_cases hx : x.state = .leader
  · rw [propose_of_leader _ hx]
    obtain ⟨c, hc, hr⟩ := h
    exact ⟨c, List.mem_append_left _ hc, hr⟩
  · rwa [propose_of_not_leader _ hx]

omit [DecidableEq Addr] [DecidableEq Id] in
theorem promised_propose (hx : x.state = .leader) (hi : x.commitIndex ≤ x.log.length)
    (command : Command Id Cmd) (caller : Caller) :
    (x.propose command caller).Promised (x.log.length + 1) x.fresh := by
  rw [propose_of_leader _ hx]
  exact ⟨_, List.mem_append_right _ (List.mem_singleton_self _), rfl,
    .inr ⟨Dict.get?_set_self _ _ _, Nat.lt_succ_of_le hi⟩⟩

theorem Presides.applied {n : Id} (h : Presides W up n s) (hs : s.applyNext n = some t) :
    Presides W up n t := by
  obtain ⟨-, he⟩ := Option.ite_none_right_eq_some.mp hs
  cases he
  refine ⟨h.mem, .step (a := .applyNext n) h.reach trivial hs, ?_, ?_⟩
  · rw [move_self]
    exact h.leader
  · rw [move_self]
    exact move_nodes (P := fun v y => v ∈ up → y.currentTerm ≤ _) h.highest fun _ => le_rfl

end DistSync.Raft

namespace DistSync.Locking
open Raft RaftNode

section Manager
variable {Client Resource Request : Type}
  [DecidableEq Client] [DecidableEq Resource] [DecidableEq Request]

/-- Whoever awaits the request's grant is told when it is granted, or has been. -/
def LockManager.Pledges (m : LockManager Client Resource Request) (q : Request) : Prop :=
  (q ∈ m.pendingFutures ∧ ∀ req ∈ m.grantedRequests, req.requestId ≠ q) ∨
    m.results.get? q = some .granted

theorem keepsServing_pledges (q : Request) :
    KeepsServing fun m : LockManager Client Resource Request => m.Pledges q where
  acquire {m} h now req := by
    unfold LockManager.applyAcquire
    dsimp only
    split
    · unfold LockManager.resolveFuture
      split
      · by_cases he : req.requestId = q
        · exact .inr (by rw [he, Dict.get?_set_self])
        · refine h.imp (fun hp => ⟨Finset.mem_erase.mpr ⟨Ne.symm he, hp.1⟩, ?_⟩) fun hr => ?_
          · exact List.forall_mem_cons.mpr ⟨he, hp.2⟩
          · rwa [Dict.get?_set, if_neg he]
      · rename_i hno
        refine h.imp_left fun hp => ⟨hp.1, List.forall_mem_cons.mpr ⟨fun he => ?_, hp.2⟩⟩
        exact hno (he ▸ hp.1)
    · exact h
  pop {m} h r := by
    unfold LockManager.popWaiter
    split <;> exact h
  drop h _ _ := h
  erase h _ _ := h

omit [DecidableEq Client] [DecidableEq Resource] in
theorem LockManager.Pledges.granted {m : LockManager Client Resource Request}
    {req : LockRequest Client Resource Request} (h : m.Pledges req.requestId)
    (hg : req ∈ m.grantedRequests) : m.results.get? req.requestId = some .granted :=
  h.resolve_left fun hp => hp.2 req hg rfl

theorem Refines.asked {m : LockManager Client Resource Request}
    {T : Table Client Resource Request} (h : Refines m T) (now : Rat)
    (req : LockRequest Client Resource Request) :
    req ∈ (m.applyAcquire now req).grantedRequests ∨ (m.applyAcquire now req).Awaits req := by
  by_cases hc : Held.Admits (T req.resourceId) req.lockType
  · refine .inl (mem_grantedRequests.mpr ⟨now, ?_⟩)
    rw [h.acquire_history, if_pos hc]
    exact List.mem_cons_self
  · cases hT : T req.resourceId with
    | none => exact absurd (fun l hl => by rw [hT] at hl; cases hl) hc
    | some k =>
      refine .inr ⟨_, h.queue now req hT hc, k.queue req rfl, Function.update_self .., ?_⟩
      exact List.mem_append_right _ (List.mem_singleton_self _)

end Manager

variable {Id Addr Client Resource : Type}
  [DecidableEq Id] [DecidableEq Addr] [DecidableEq Client] [DecidableEq Resource]
variable {W : Wiring Id Addr} {s t : LockCluster Id Addr Client Resource} {up : Finset Id}

def LockAction.actor (W : Wiring Id Addr) (s : LockCluster Id Addr Client Resource) :
    LockAction Id Client Resource → Option Id
  | .raft a => Raft.actor W s.raft a
  | .release n _ _ | .abort n _ _ | .acquire n _ _ _ _ | .finishPropose n _ | .applyNext n _ =>
    some n
  | .wake j | .waitTimeout j => s.acquires[j]?.map AcquireCall.node

structure Survives (W : Wiring Id Addr) (up : Finset Id)
    (s : LockCluster Id Addr Client Resource) (a : LockAction Id Client Resource) : Prop where
  safe : SafeRaft W s a
  among : ∀ n ∈ a.actor W s, n ∈ up

omit [DecidableEq Addr] [DecidableEq Client] [DecidableEq Resource] in
theorem survives_of_actor {a : LockAction Id Client Resource} {n : Id} (hs : SafeRaft W s a)
    (ha : a.actor W s = some n) (hn : n ∈ up) : Survives W up s a := by
  refine ⟨hs, fun m hm => ?_⟩
  cases ha.symm.trans hm
  exact hn

theorem reach_of_survives (h : (service W Client Resource).Reach (SafeRaft W) s)
    (hl : (service W Client Resource).Leads (Survives W up) s t) :
    (service W Client Resource).Reach (SafeRaft W) t :=
  h.leads (hl.mono fun _ _ ha => ha.safe)

theorem leads_quiet {r : Cluster Id Addr (LockCommand Client Resource Nat)}
    (h : (raft W _).Leads (QuietStep W up) s.raft r) :
    (service W Client Resource).Leads (Survives W up) s { s with raft := r } := by
  induction h with
  | refl => exact .refl
  | @tail r r' _ hstep ih =>
    obtain ⟨a, ha, hs⟩ := hstep
    have hs : Cluster.step W r a = some r' := hs
    have hinternal : internal a = true := by
      have hq := ha.quiet
      cases a <;> first | rfl | exact hq.elim
    have hservice : (service W Client Resource).step { s with raft := r } (.raft a) =
        some { s with raft := r' } := by
      simp only [service, LockCluster.step, if_pos hinternal, hs, Option.map_some]
    exact ih.tail ⟨.raft a, ⟨ha.safe, ha.among⟩, hservice⟩

theorem step_finishPropose {n : Id} {k : Nat}
    {r : Cluster Id Addr (LockCommand Client Resource Nat)}
    (h : s.raft.finishPropose n k = some r) :
    ∃ t, (service W Client Resource).step s (.finishPropose n k) = some t ∧ t.raft = r := by
  have hr := h
  obtain ⟨c, hk, -⟩ := Option.map_eq_some_iff.mp hr
  simp only [service, LockCluster.step, LockCluster.finishPropose, hk, h, Option.bind_some,
    Option.map_some]
  refine ⟨_, rfl, ?_⟩
  split
  · rfl
  · split
    · split <;> rfl
    · rfl
    · rfl

/-- Node `n` is up, leader of the highest term there, has its heartbeat loop and has applied its
whole log. -/
structure Ready (W : Wiring Id Addr) (up : Finset Id) (n : Id)
    (s : LockCluster Id Addr Client Resource) : Prop where
  reach : (service W Client Resource).Reach (SafeRaft W) s
  presides : Presides W up n s.raft
  beats : ∃ loop, (s.raft.nodes n).heartbeatTask = some loop
  applied : (s.raft.nodes n).lastApplied = (s.raft.nodes n).log.length

theorem machineInv_reach (hW : W.Complete)
    (h : (service W Client Resource).Reach (SafeRaft W) s) : MachineInv W s.raft := by
  have hraft := safeRaft_reach h
  exact MachineInv.reach hW hraft (disciplined_of_safeStep hW hraft)

theorem step_applyNext {n : Id} {e : LogEntry Id (LockCommand Client Resource Nat)}
    (hlt : (s.raft.nodes n).lastApplied < (s.raft.nodes n).commitIndex)
    (he : (s.raft.nodes n).log[(s.raft.nodes n).lastApplied]? = some e) (now : Rat) :
    ∃ r, s.raft.applyNext n = some r ∧
      r.nodes n = { s.raft.nodes n with lastApplied := (s.raft.nodes n).lastApplied + 1 } ∧
      (service W Client Resource).step s (.applyNext n now) = some
        { s.setManager n ((s.managers n).applyEntry now e) with raft := r } := by
  have hr : s.raft.applyNext n = some _ := if_pos hlt
  refine ⟨_, hr, move_self .., ?_⟩
  have hnext : (s.raft.nodes n).applyNext.2 = some e := he
  simp only [service, LockCluster.step, LockCluster.applyNext, hr, hnext, Option.map_some]
  rfl

theorem leads_ready_of_committed (hW : W.Complete) {n : Id}
    (hr : (service W Client Resource).Reach (SafeRaft W) s) (h : Presides W up n s.raft)
    (hb : ∃ loop, (s.raft.nodes n).heartbeatTask = some loop)
    (hc : (s.raft.nodes n).log.length ≤ (s.raft.nodes n).commitIndex) :
    ∃ t, (service W Client Resource).Leads (Survives W up) s t ∧ Ready W up n t := by
  refine System.Leads.descend (P := fun t => (service W Client Resource).Reach (SafeRaft W) t ∧
      Presides W up n t.raft ∧ (∃ loop, (t.raft.nodes n).heartbeatTask = some loop) ∧
      (t.raft.nodes n).log.length ≤ (t.raft.nodes n).commitIndex)
    (fun t => (t.raft.nodes n).commitIndex - (t.raft.nodes n).lastApplied) (fun t ht => ?_)
    ⟨hr, h, hb, hc⟩
  obtain ⟨hr, h, hb, hc⟩ := ht
  have hM := machineInv_reach hW hr
  have happlied := hM.applied_le n
  have hcommit := hM.commit_le n
  cases Nat.lt_or_ge (t.raft.nodes n).lastApplied (t.raft.nodes n).commitIndex with
  | inr hge => exact ⟨t, .refl, .inl ⟨hr, h, hb, by omega⟩⟩
  | inl hlt =>
    obtain ⟨r, hr', hn, hstep⟩ := step_applyNext (W := W) hlt
      (List.getElem?_eq_getElem (hlt.trans_le hcommit)) 0
    have hguard : Survives W up t (.applyNext n 0) := survives_of_actor trivial rfl h.mem
    refine ⟨_, .of_step hguard hstep, .inr ⟨⟨?_, h.applied hr', ?_, ?_⟩, ?_⟩⟩
    · exact .step (a := .applyNext n 0) hr trivial hstep
    · rw [hn]
      exact hb
    · rw [hn]
      exact hc
    · rw [hn]
      exact Nat.sub_lt_sub_left hlt (Nat.lt_succ_self _)

def LockCluster.FuturesOld (s : LockCluster Id Addr Client Resource) : Prop :=
  ∀ c ∈ s.acquires, ∀ f, c.phase = .proposing f ∨ c.phase = .cancelling f →
    f < (s.raft.nodes c.node).fresh

theorem LockTransition.futures_le {a : LockAction Id Client Resource}
    (h : LockTransition W s a t) (n : Id) : (s.raft.nodes n).fresh ≤ (t.raft.nodes n).fresh := by
  cases h.raft_step with
  | inl he => rw [he]
  | inr hr =>
    obtain ⟨r, hr⟩ := hr
    exact fresh_le_step hr.step n

theorem futuresOld_reach {guard : LockCluster Id Addr Client Resource →
      LockAction Id Client Resource → Prop}
    (h : (service W Client Resource).Reach guard s) : s.FuturesOld := by
  refine h.invariant (I := LockCluster.FuturesOld) (fun c hc => by cases hc)
    fun s a t _ hi _ hs c hc f hf => ?_
  have ht := service_cases hs
  have hold (hc : c ∈ s.acquires) : f < (t.raft.nodes c.node).fresh :=
    (hi c hc f hf).trans_le (ht.futures_le c.node)
  have hproposed {command : LockCommand Client Resource Nat}
      (hx : (s.raft.nodes c.node).state = .leader)
      (hr : t.raft = s.raft.propose c.node command) (hf : f = (s.raft.nodes c.node).fresh) :
      f < (t.raft.nodes c.node).fresh := by
    rw [hr, Cluster.propose, move_self, propose_of_leader _ hx, hf]
    exact Nat.lt_succ_self _
  cases a with
  | acquire n client resource lockType timeout =>
    simp only [service, LockCluster.step, LockCluster.acquire, Option.some.injEq] at hs
    subst hs
    split at hc
    · exact hold hc
    · rename_i hx
      cases List.mem_append.mp hc with
      | inl hc => exact hold hc
      | inr hc =>
        cases List.mem_singleton.mp hc
        refine hproposed (not_not.mp hx) (by rw [if_neg hx]) ?_
        cases hf with
        | inl hf => exact (Phase.proposing.inj hf).symm
        | inr hf => cases hf
  | waitTimeout j =>
    simp only [service, LockCluster.step, LockCluster.waitTimeout] at hs
    obtain ⟨call, -, hs⟩ := Option.bind_eq_some_iff.mp hs
    obtain ⟨-, hs⟩ := Option.ite_none_right_eq_some.mp hs
    split at hs
    · cases hs
      exact hold (List.mem_of_mem_erase hc)
    · rename_i hx
      cases hs
      cases List.mem_append.mp hc with
      | inl hc => exact hold (List.mem_of_mem_erase hc)
      | inr hc =>
        cases List.mem_singleton.mp hc
        refine hproposed (not_not.mp hx) rfl ?_
        cases hf with
        | inl hf => cases hf
        | inr hf => exact (Phase.cancelling.inj hf).symm
  | finishPropose n k =>
    cases ht with
    | finish n k raft' hr => exact hold hc
    | deny n k raft' hr d hd hden m hm => exact hold (List.mem_of_mem_erase hc)
    | commit n k raft' hr d hd =>
      cases List.mem_append.mp hc with
      | inl hc => exact hold (List.mem_of_mem_erase hc)
      | inr hc =>
        cases List.mem_singleton.mp hc
        rcases hf with hf | hf <;> cases hf
  | wake j =>
    cases ht
    exact hold (List.mem_of_mem_erase hc)
  | _ =>
    cases ht
    exact hold hc

section Serving
variable [Nontrivial Id] (hW : W.Complete)
  (hq : ∀ n ∈ up, ((W.peers n).length + 1) / 2 + 1 ≤ up.card) {n : Id}
include hW hq

theorem leads_ready (hup : up.Nonempty) (h : (service W Client Resource).Reach (SafeRaft W) s)
    (client : Client) (resource : Resource) :
    ∃ t n, (service W Client Resource).Leads (Survives W up) s t ∧ Ready W up n t := by
  have hraft := (safeRaft_reach h).reachable
  obtain ⟨r, n, hn, hl, hlead, hhigh⟩ := leads_leader hW hup hq hraft
  have hlead₁ := leads_quiet (W := W) hl
  obtain ⟨r₂, loop, hr₂, hpres, hb⟩ :=
    Presides.beating (⟨hn, hl.reachable hraft, hlead, hhigh⟩ : Presides W up n r)
  obtain ⟨t₂, hlead₂, rfl⟩ : ∃ t₂,
      (service W Client Resource).Leads (Survives W up) { s with raft := r } t₂ ∧
        t₂.raft = r₂ := by
    cases hr₂ with
    | inl he => exact ⟨_, .refl, he.symm⟩
    | inr hk =>
      obtain ⟨k, hk⟩ := hk
      obtain ⟨t₂, hstep, he⟩ := step_finishPropose (W := W) (s := { s with raft := r }) hk
      exact ⟨t₂, .of_step (a := .finishPropose n k) (survives_of_actor trivial rfl hn) hstep, he⟩
  -- an entry of its own term lets the leader commit the rest of its log
  let release : LockAction Id Client Resource := .release n client resource
  have hpropose : (service W Client Resource).step t₂ release = some
      { t₂ with raft := t₂.raft.propose n (.release client resource) } := rfl
  obtain ⟨r₃, hl₃, hpres₃, hcont, hcommit⟩ :=
    hpres.commits hW (hq n hn) hb (.release client resource)
  have hlead₃ := leads_quiet (W := W)
    (s := { t₂ with raft := t₂.raft.propose n (.release client resource) }) hl₃
  have hall := ((hlead₁.trans hlead₂).tail
    ⟨release, survives_of_actor trivial rfl hn, hpropose⟩).trans hlead₃
  rw [propose_of_leader _ hpres.leader] at hcont
  obtain ⟨u, hu, hready⟩ := leads_ready_of_committed hW (reach_of_survives h hall) hpres₃
    ⟨loop, hcont.heartbeatTask.trans hb⟩ (by
      rw [show (r₃.nodes n).log = _ from hcont.log, List.length_append, List.length_singleton]
      exact hcommit)
  exact ⟨u, n, hall.trans hu, hready⟩

theorem Ready.serve (h : Ready W up n s) (command : LockCommand Client Resource Nat)
    {a : LockAction Id Client Resource} (ha : SafeRaft W s a)
    (hs : (service W Client Resource).step s a = some t)
    (ht : t.raft = s.raft.propose n command) :
    ∃ u, (service W Client Resource).Leads (Survives W up) t u ∧ Ready W up n u ∧
      u.managers n = (t.managers n).applyCommand 0 command ∧ u.acquires = t.acquires ∧
      (u.raft.nodes n).Resolved (s.raft.nodes n).fresh ∧
      ∀ f, (s.raft.nodes n).Resolved f → (u.raft.nodes n).Resolved f := by
  obtain ⟨loop, hb⟩ := h.beats
  obtain ⟨r, hl, hpres, hcont, hcommit⟩ := h.presides.commits hW (hq n h.presides.mem) hb command
  rw [← ht] at hl
  have hlead := leads_quiet hl
  have hreach : (service W Client Resource).Reach (SafeRaft W) { t with raft := r } :=
    reach_of_survives (.step h.reach ha hs) hlead
  have hkept := hcont
  rw [propose_of_leader _ h.presides.leader] at hkept
  have hlog : (r.nodes n).log = _ := hkept.log
  have happlied : (r.nodes n).lastApplied = (s.raft.nodes n).log.length :=
    hkept.lastApplied.trans h.applied
  obtain ⟨r', hr', hn, hstep⟩ := step_applyNext (W := W) (s := { t with raft := r })
    (happlied ▸ hcommit) (by rw [happlied, hlog, List.getElem?_concat_length]) 0
  have hbound := (machineInv_reach hW h.reach).commit_le n
  refine ⟨_, hlead.tail ⟨.applyNext n 0, survives_of_actor trivial rfl h.presides.mem, hstep⟩,
    ⟨.step (a := .applyNext n 0) hreach trivial hstep, hpres.applied hr', ⟨loop, ?_⟩, ?_⟩,
    Function.update_self .., rfl, ?_, fun f hf => ?_⟩
  · rw [hn]
    exact hkept.heartbeatTask.trans hb
  · rw [hn]
    dsimp only
    rw [happlied, hlog, List.length_append, List.length_singleton]
  · rw [hn]
    exact (hcont.promised _ _ (promised_propose h.presides.leader hbound _ _)).resolved hcommit
  · rw [hn]
    exact hcont.resolved (hf.propose _ _)

structure Owes (W : Wiring Id Addr) (up : Finset Id) (n : Id)
    (calls : List (AcquireCall Id Client Resource)) (future : Nat)
    (req : LockRequest Client Resource Nat) (s : LockCluster Id Addr Client Resource) : Prop where
  ready : Ready W up n s
  acquires : s.acquires = calls
  resolved : (s.raft.nodes n).Resolved future
  pledges : (s.managers n).Pledges req.requestId

/-- Where a request waits, its resource can be given back until its turn has come. -/
theorem leads_granted {calls : List (AcquireCall Id Client Resource)} {future : Nat}
    {req : LockRequest Client Resource Nat} (h : Owes W up n calls future req s)
    (hw : (s.managers n).Awaits req) :
    ∃ t, (service W Client Resource).Leads (Survives W up) s t ∧ Owes W up n calls future req t ∧
      req ∈ (t.managers n).grantedRequests := by
  refine System.Leads.descend
    (P := fun t => Owes W up n calls future req t ∧ (t.managers n).Awaits req)
    (fun t => (t.managers n).ahead req) (fun t ht => ?_) ⟨h, hw⟩
  obtain ⟨h, T, hT, k, hk, hw⟩ := ht
  obtain ⟨client, hc⟩ := k.held
  let c : Rat × LockCommand Client Resource Nat := (0, .release client req.resourceId)
  obtain ⟨u, hl, hready, hm, hacq, -, hres⟩ := h.ready.serve hW hq c.2
    (a := .release n client req.resourceId) trivial rfl rfl
  have howes : Owes W up n calls future req u := by
    refine ⟨hready, hacq.trans h.acquires, hres _ h.resolved, ?_⟩
    rw [hm]
    exact (keepsServing_pledges _).applyRelease h.pledges 0 client req.resourceId
  have hguard : Survives W up t (.release n client req.resourceId) :=
    survives_of_actor trivial rfl h.ready.presides.mem
  refine ⟨u, .head ⟨_, hguard, rfl⟩ hl, ?_⟩
  have hT' : Refines (u.managers n) (T.apply c.2) := hm ▸ hT.apply 0 c.2
  cases hT.closer hk hw (c := c) trivial with
  | inl hgrant =>
    refine .inl ⟨howes, ?_⟩
    rw [hm, hT.grants]
    exact List.mem_append_left _ (List.mem_reverse.mpr hgrant)
  | inr hcloser =>
    obtain ⟨k', hk', hw', hle⟩ := hcloser
    have hholds : (t.managers n).HandsBack req.resourceId c :=
      ⟨rfl, hT.holds_iff.mpr ⟨k, hk, hc⟩⟩
    rw [if_pos hholds] at hle
    refine .inr ⟨⟨howes, _, hT', k', hk', hw'⟩, ?_⟩
    rw [hT'.ahead hk', hT.ahead hk]
    exact hle

end Serving

omit [DecidableEq Addr] [DecidableEq Client] [DecidableEq Resource] in
theorem acquire_of_leader {n : Id} (hx : (s.raft.nodes n).state = .leader) (client : Client)
    (resource : Resource) (lockType : LockType) (timeout : Rat) :
    s.acquire n client resource lockType timeout =
      { s.setManager n ((s.managers n).registerFuture s.fresh) with
        raft := s.raft.propose n (.acquire ⟨s.fresh, client, resource, lockType, timeout⟩)
        acquires := s.acquires ++
          [⟨n, ⟨s.fresh, client, resource, lockType, timeout⟩, .proposing (s.raft.nodes n).fresh⟩]
        fresh := s.fresh + 1 } := by
  unfold LockCluster.acquire
  exact if_neg (not_not.mpr hx)

/-- A call whose proposal is resolved, and whose request is granted, can return. -/
theorem leads_told {n : Id} {future : Nat} {req : LockRequest Client Resource Nat} (hn : n ∈ up)
    (ha : s.awaiting n future = some ⟨n, req, .proposing future⟩)
    (hr : (s.raft.nodes n).Resolved future)
    (hg : (s.managers n).results.get? req.requestId = some .granted) :
    ∃ t, (service W Client Resource).Leads (Survives W up) s t ∧ (req, .granted) ∈ t.returned := by
  obtain ⟨c, hc, rfl, hres⟩ := hr
  obtain ⟨k, hk⟩ := List.mem_iff_getElem?.mp hc
  obtain ⟨r, hraft⟩ : ∃ r, s.raft.finishPropose n k = some r := by
    rw [Cluster.finishPropose, hk]
    exact ⟨_, rfl⟩
  have hfinish : (service W Client Resource).step s (.finishPropose n k) = some
      ({ s with raft := r }.resume ⟨n, req, .proposing c.future⟩ .waiting) := by
    simp only [service, LockCluster.step, LockCluster.finishPropose, hk, Option.bind_some, hraft,
      Option.map_some]
    rw [ha]
    simp only [hres, if_true]
  generalize hu : LockCluster.resume { s with raft := r } _ _ = u at hfinish
  have hlast : u.acquires[(s.acquires.erase ⟨n, req, .proposing c.future⟩).length]? =
      some ⟨n, req, .waiting⟩ := by
    rw [← hu]
    exact List.getElem?_concat_length
  have hgu : (u.managers n).results.get? req.requestId = some .granted := by
    rw [← hu]
    exact hg
  have hwake : (service W Client Resource).step u
      (.wake (s.acquires.erase ⟨n, req, .proposing c.future⟩).length) =
        some (u.answer ⟨n, req, .waiting⟩ .granted) := by
    simp only [service, LockCluster.step, LockCluster.wake, hlast, Option.bind_some, if_true, hgu,
      Option.map_some]
  have hactor : LockAction.actor W u
      (.wake (s.acquires.erase ⟨n, req, .proposing c.future⟩).length) = some n := by
    simp only [LockAction.actor, hlast, Option.map_some]
  have hguard : Survives W up s (.finishPropose n k) := survives_of_actor trivial rfl hn
  exact ⟨_, (System.Leads.of_step hguard hfinish).tail
    ⟨.wake _, survives_of_actor trivial hactor hn, hwake⟩, List.mem_cons_self⟩

/-- The lock service never gets stuck as long as the nodes that are up are a quorum. From every
state that it can reach while Raft keeps its disciplines, steps of theirs lead to a leader that can
grant any request then: it commits it, those who hold the resource or wait for it before can give it
back in turn, and the caller is told GRANTED. -/
theorem always_grantable [Nontrivial Id] (hW : W.Complete) (hup : up.Nonempty)
    (hq : ∀ n ∈ up, ((W.peers n).length + 1) / 2 + 1 ≤ up.card)
    (h : (service W Client Resource).Reach (SafeRaft W) s) (client : Client) (resource : Resource)
    (lockType : LockType) (timeout : Rat) :
    ∃ t, ∃ n ∈ up, ∃ u, (service W Client Resource).Leads (Survives W up) s t ∧
      (service W Client Resource).Leads (Survives W up)
        (t.acquire n client resource lockType timeout) u ∧
      (⟨t.fresh, client, resource, lockType, timeout⟩, .granted) ∈ u.returned := by
  obtain ⟨t, n, hl, hready⟩ := leads_ready hW hq hup h client resource
  have hx := hready.presides.leader
  let req : LockRequest Client Resource Nat := ⟨t.fresh, client, resource, lockType, timeout⟩
  let call : AcquireCall Id Client Resource := ⟨n, req, .proposing (t.raft.nodes n).fresh⟩
  have hacquire := acquire_of_leader hx client resource lockType timeout
  obtain ⟨u, hu, hready', hm, hcalls, hres, -⟩ := hready.serve hW hq (.acquire req)
    (a := .acquire n client resource lockType timeout) trivial rfl (by rw [hacquire])
  rw [hacquire] at hm hcalls
  have hregistered : (Function.update t.managers n ((t.managers n).registerFuture t.fresh)) n =
      (t.managers n).registerFuture t.fresh := Function.update_self ..
  have hm : u.managers n = ((t.managers n).registerFuture t.fresh).applyAcquire 0 req :=
    hm.trans (congrArg (LockManager.applyAcquire · 0 req) hregistered)
  obtain ⟨f, hf⟩ := issuedOnly_reach hready.reach
  obtain ⟨l, hrep, -⟩ := hf.manager n
  have hpledges : ((t.managers n).registerFuture t.fresh).Pledges t.fresh :=
    .inl ⟨Finset.mem_insert_self _ _, fun q hq he => (hf.granted hq).1.ne he⟩
  have howes : Owes W up n (t.acquires ++ [call]) (t.raft.nodes n).fresh req u := by
    refine ⟨hready', hcalls, hres, ?_⟩
    rw [hm]
    exact (keepsServing_pledges _).acquire hpledges 0 req
  obtain ⟨v, huv, hv, hgranted⟩ : ∃ v, (service W Client Resource).Leads (Survives W up) u v ∧
      Owes W up n (t.acquires ++ [call]) (t.raft.nodes n).fresh req v ∧
      req ∈ (v.managers n).grantedRequests := by
    have hreg : Replays ((t.managers n).registerFuture t.fresh) l := hrep.of_same rfl rfl
    have hasked := hreg.refines.asked 0 req
    rw [← hm] at hasked
    cases hasked with
    | inl hg => exact ⟨u, .refl, howes, hg⟩
    | inr hw => exact leads_granted hW hq howes hw
  have hnew : v.awaiting n (t.raft.nodes n).fresh = some call := by
    have hold := futuresOld_reach hready.reach
    rw [LockCluster.awaiting, hv.acquires, List.find?_append, List.find?_eq_none.mpr]
    · simp [call]
    · intro c hc hp
      have hp := of_decide_eq_true hp
      exact absurd (hp.1 ▸ hold c hc _ hp.2) (lt_irrefl _)
  obtain ⟨w, hvw, hw⟩ := leads_told (W := W) hready.presides.mem hnew hv.resolved
    (hv.pledges.granted hgranted)
  exact ⟨t, n, hready.presides.mem, w, hl, (hu.trans huv).trans hvw, hw⟩

theorem always_grantable_served :
    ∃ s, (service (mesh 3) Nat Nat).runIf (SafeRaft (mesh 3)) (service (mesh 3) Nat Nat).init
        served = some s ∧
      (s.raft.nodes 0).state = .leader ∧ (s.managers 0).Holds 7 5 ∧
      ∃ t, ∃ n ∈ ({1, 2} : Finset (Fin 3)), ∃ u,
        (service (mesh 3) Nat Nat).Leads (Survives (mesh 3) {1, 2}) s t ∧
        (service (mesh 3) Nat Nat).Leads (Survives (mesh 3) {1, 2})
          (t.acquire n 9 5 .exclusive 30) u ∧
        (⟨t.fresh, 9, 5, .exclusive, 30⟩, .granted) ∈ u.returned := by
  have hrun : ((service (mesh 3) Nat Nat).runIf (SafeRaft (mesh 3)) (service (mesh 3) Nat Nat).init
      served).any (fun s => (s.raft.nodes 0).state = .leader ∧ (s.managers 0).Holds 7 5) =
        true := by
    decide +kernel
  obtain ⟨s, hs, hholds⟩ := (Option.any_eq_true ..).mp hrun
  obtain ⟨hlead, hholds⟩ := of_decide_eq_true hholds
  exact ⟨s, hs, hlead, hholds, always_grantable (mesh_complete 3) (Finset.insert_nonempty ..)
    (by decide) (System.Reach.init.runIf hs) 9 5 .exclusive 30⟩

end DistSync.Locking
