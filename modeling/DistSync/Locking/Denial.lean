import DistSync.Raft.StateMachine
import DistSync.Raft.Entries
import DistSync.Locking.Refinement
import DistSync.Locking.Service

/-! What a denied `acquire` leaves behind. All managers replay one committed sequence, so
a request is not granted any more once no log holds it, or once the sequence holds it,
does not grant it, and cancels it. -/
namespace DistSync.Locking
open Raft
variable {Id Addr Client Resource : Type}
  [DecidableEq Id] [DecidableEq Addr] [DecidableEq Client] [DecidableEq Resource]
variable {W : Wiring Id Addr} {s t : LockCluster Id Addr Client Resource}
  {a : LockAction Id Client Resource} {req : LockRequest Client Resource Nat}
  {m : LockManager Client Resource Nat} {l : List (LogEntry Id (LockCommand Client Resource Nat))}

def stands {Request : Type} [DecidableEq Request] (req : LockRequest Client Resource Request) :
    List (LockEvent Client Resource Request) → Bool
  | [] => false
  | .granted req' _ :: h => req' = req || stands req h
  | .released client resource :: h =>
    !(client = req.clientId ∧ resource = req.resourceId) && stands req h
  | .queued _ :: h => stands req h
  | .cancelled _ _ :: h => stands req h

def LockManager.HeldBy (m : LockManager Client Resource Nat)
    (req : LockRequest Client Resource Nat) : Prop :=
  (∃ l ∈ m.locks.get? req.resourceId, req.clientId ∈ l.holderIds) ∧ stands req m.history = true

instance (m : LockManager Client Resource Nat) (req : LockRequest Client Resource Nat) :
    Decidable (m.HeldBy req) := inferInstanceAs (Decidable (_ ∧ _))

/-- No client holds a resource, on any node, by virtue of a request that was denied. -/
def DenialsFinal (s : LockCluster Id Addr Client Resource) : Prop :=
  ∀ req, (req, .denied) ∈ s.returned → ∀ n, ¬ (s.managers n).HeldBy req

def replayed (l : List (LogEntry Id (LockCommand Client Resource Nat))) :
    LockManager Client Resource Nat :=
  l.foldl (fun m entry => m.applyEntry 0 entry) {}

def entriesOf {Cmd : Type} : Rpc Id Addr Cmd → List (LogEntry Id Cmd)
  | .vote _ _ _ _ => []
  | .append _ _ _ req _ _ => req.entries

/-- The request's `lock_acquire` is in no log and in no `append_entries` in flight. -/
def Forgotten (s : Cluster Id Addr (LockCommand Client Resource Nat))
    (req : LockRequest Client Resource Nat) : Prop :=
  (∀ n, .client (.acquire req) ∉ (s.nodes n).log.map LogEntry.command) ∧
    ∀ rpc ∈ s.net, .client (.acquire req) ∉ (entriesOf rpc).map LogEntry.command

/-- The committed log holds the request's `lock_acquire` and later its `lock_cancel`, and
applying it up to there does not grant the request. -/
def Withdrawn (x : RaftNode Id Addr (LockCommand Client Resource Nat))
    (req : LockRequest Client Resource Nat) : Prop :=
  ∃ j < x.commitIndex,
    x.log[j]?.map LogEntry.command =
      some (.client (.cancel req.requestId req.clientId req.resourceId)) ∧
    .client (.acquire req) ∈ (x.log.take j).map LogEntry.command ∧
    req ∉ (replayed (x.log.take j)).grantedRequests

/-- Raft keeps its disciplines, and a proposed request is denied only when it is forgotten
or withdrawn. -/
def FinalDenials (W : Wiring Id Addr) (s : LockCluster Id Addr Client Resource)
    (a : LockAction Id Client Resource) : Prop :=
  (match a with
    | .raft r => SafeStep W s.raft r
    | _ => True) ∧
  ∀ c ∈ denial s a, Forgotten s.raft c.request ∨ Withdrawn (s.raft.nodes c.node) c.request

instance [Fintype Id] (s : Cluster Id Addr (LockCommand Client Resource Nat))
    (req : LockRequest Client Resource Nat) : Decidable (Forgotten s req) :=
  inferInstanceAs (Decidable (_ ∧ _))

instance (x : RaftNode Id Addr (LockCommand Client Resource Nat))
    (req : LockRequest Client Resource Nat) : Decidable (Withdrawn x req) :=
  inferInstanceAs (Decidable (∃ j < x.commitIndex, _))

instance [Fintype Id] (W : Wiring Id Addr) (s : LockCluster Id Addr Client Resource)
    (a : LockAction Id Client Resource) : Decidable (FinalDenials W s a) :=
  match a with
  | .raft _ => inferInstanceAs (Decidable (SafeStep _ _ _ ∧ ∀ c ∈ denial _ _, _))
  | .release _ _ _ => inferInstanceAs (Decidable (True ∧ ∀ c ∈ denial _ _, _))
  | .abort _ _ _ => inferInstanceAs (Decidable (True ∧ ∀ c ∈ denial _ _, _))
  | .acquire _ _ _ _ _ => inferInstanceAs (Decidable (True ∧ ∀ c ∈ denial _ _, _))
  | .finishPropose _ _ => inferInstanceAs (Decidable (True ∧ ∀ c ∈ denial _ _, _))
  | .wake _ => inferInstanceAs (Decidable (True ∧ ∀ c ∈ denial _ _, _))
  | .waitTimeout _ => inferInstanceAs (Decidable (True ∧ ∀ c ∈ denial _ _, _))
  | .applyNext _ _ => inferInstanceAs (Decidable (True ∧ ∀ c ∈ denial _ _, _))

section Replay

def commands (l : List (LogEntry Id (LockCommand Client Resource Nat))) :
    List (LockCommand Client Resource Nat) :=
  l.filterMap fun e =>
    match e.command with
    | .noOp _ => none
    | .client c => some c

omit [DecidableEq Id] [DecidableEq Client] [DecidableEq Resource] in
theorem commands_append (l l' : List (LogEntry Id (LockCommand Client Resource Nat))) :
    commands (l ++ l') = commands l ++ commands l' := List.filterMap_append

omit [DecidableEq Id] [DecidableEq Client] [DecidableEq Resource] in
theorem mem_commands {c : LockCommand Client Resource Nat} :
    c ∈ commands l ↔ ∃ e ∈ l, e.command = .client c := by
  simp only [commands, List.mem_filterMap]
  refine exists_congr fun e => and_congr_right fun _ => ?_
  cases e.command <;> simp

structure Replays (m : LockManager Client Resource Nat)
    (l : List (LogEntry Id (LockCommand Client Resource Nat))) : Prop where
  refines : Refines m (Table.free.replay (commands l)).1
  granted : m.grantedRequests = (Table.free.replay (commands l)).2.reverse

omit [DecidableEq Id] in
theorem Replays.of_same {m' : LockManager Client Resource Nat} (h : Replays m l)
    (hl : m'.locks = m.locks) (hh : m'.history = m.history) : Replays m' l where
  refines := ⟨fun r hr => by rw [hl]; exact h.refines.free r hr,
    fun r k hk => by rw [hl]; exact h.refines.held r k hk⟩
  granted := by
    rw [← h.granted, LockManager.grantedRequests, hh]
    rfl

omit [DecidableEq Id] in
theorem Replays.entry (h : Replays m l) (now : Rat)
    (e : LogEntry Id (LockCommand Client Resource Nat)) :
    Replays (m.applyEntry now e) (l ++ [e]) := by
  cases hc : e.command with
  | noOp n =>
    have hl : commands (l ++ [e]) = commands l := by simp [commands, hc]
    have hm : m.applyEntry now e = m := by simp [LockManager.applyEntry, hc]
    rw [hm]
    exact ⟨hl ▸ h.refines, hl ▸ h.granted⟩
  | client c =>
    have hl : commands (l ++ [e]) = commands l ++ [c] := by simp [commands, hc]
    have hm : m.applyEntry now e = m.applyCommand now c := by simp [LockManager.applyEntry, hc]
    constructor
    · rw [hm, hl, Table.replay_concat]
      exact h.refines.apply now c
    · rw [hm, hl, Table.replay_concat, h.refines.grants, h.granted, List.reverse_append]

omit [DecidableEq Id] in
theorem replays_nil : Replays ({} : LockManager Client Resource Nat)
    ([] : List (LogEntry Id (LockCommand Client Resource Nat))) := ⟨refines_init, rfl⟩

omit [DecidableEq Id] in
theorem replays_replayed (l : List (LogEntry Id (LockCommand Client Resource Nat))) :
    Replays (replayed l) l := by
  induction l using List.reverseRecOn with
  | nil => exact replays_nil
  | append_singleton l e ih =>
    rw [replayed, List.foldl_append]
    exact ih.entry 0 e

theorem mem_granted_of_stands (h : stands req m.history = true) : req ∈ m.grantedRequests := by
  have hmem (es : List (LockEvent Client Resource Nat)) (h : stands req es = true) :
      ∃ now, .granted req now ∈ es := by
    induction es with
    | nil => cases h
    | cons e es ih =>
      have hrest (h : stands req es = true) : ∃ now, .granted req now ∈ e :: es := by
        obtain ⟨now, hn⟩ := ih h
        exact ⟨now, List.mem_cons_of_mem e hn⟩
      cases e with
      | granted req' now =>
        cases Bool.or_eq_true_iff.mp h with
        | inl he => exact ⟨now, by rw [of_decide_eq_true he]; exact List.mem_cons_self⟩
        | inr h => exact hrest h
      | queued req' => exact hrest h
      | released client resource => exact hrest (Bool.and_eq_true_iff.mp h).2
      | cancelled q resource => exact hrest h
  obtain ⟨now, hn⟩ := hmem _ h
  exact List.mem_filterMap.mpr ⟨_, hn, rfl⟩

end Replay
section Steps

def acquiringNode : LockAction Id Client Resource → Option Id
  | .acquire n _ _ _ _ => some n
  | _ => none

/-- `r` is what the step does to Raft: an internal step, or a call of the lock manager,
which proposes at most a fresh request. -/
structure RaftStep (W : Wiring Id Addr) (s : LockCluster Id Addr Client Resource)
    (a : LockAction Id Client Resource) (t : LockCluster Id Addr Client Resource)
    (r : Action Id (LockCommand Client Resource Nat)) : Prop where
  step : (raft W _).step s.raft r = some t.raft
  internal : a = .raft r ∨ internal r = false
  proposes : ∀ n q, r = .propose n (.acquire q) →
    q.requestId = s.fresh ∧ t.fresh = s.fresh + 1 ∧ acquiringNode a = some n
  applies : ∀ n, r = .applyNext n → ∃ now, a = .applyNext n now

theorem LockTransition.raft_step (h : LockTransition W s a t) :
    t.raft = s.raft ∨ ∃ r, RaftStep W s a t r := by
  have hpropose {n : Id} {c : LockCommand Client Resource Nat}
      (ht : t.raft = s.raft.propose n c)
      (hf : ∀ q, c = .acquire q →
        q.requestId = s.fresh ∧ t.fresh = s.fresh + 1 ∧ acquiringNode a = some n) :
      ∃ r, RaftStep W s a t r := by
    refine ⟨.propose n c, congrArg some ht.symm, .inr rfl, fun n' q hq => ?_, nofun⟩
    cases hq
    exact hf q rfl
  have hfinish {n : Id} {k : Nat} (ht : s.raft.finishPropose n k = some t.raft) :
      ∃ r, RaftStep W s a t r := ⟨.finishPropose n k, ht, .inr rfl, nofun, nofun⟩
  cases h with
  | raft r raft' hi hs =>
    refine .inr ⟨r, hs, .inl rfl, fun n q hq => ?_, fun n hn => ?_⟩
    · subst hq
      cases hi
    · subst hn
      cases hi
  | release n client resource => exact .inr (hpropose rfl nofun)
  | abort n client resource => exact .inr (hpropose rfl nofun)
  | reject n client resource lockType timeout => exact .inl rfl
  | acquire n client resource lockType timeout =>
    refine .inr (hpropose rfl fun q hq => ?_)
    cases hq
    exact ⟨rfl, rfl, rfl⟩
  | finish n k raft' hs => exact .inr (hfinish hs)
  | commit n k raft' hs c hc => exact .inr (hfinish hs)
  | deny n k raft' hs c hc hd m hm => exact .inr (hfinish hs)
  | wake j c hc status hd => exact .inl rfl
  | giveUp j c hc hd => exact .inl rfl
  | cancel j c hc => exact .inr (hpropose rfl nofun)
  | apply n now raft' hs =>
    refine .inr ⟨.applyNext n, hs, .inr rfl, nofun, fun n' hn => ⟨now, ?_⟩⟩
    cases hn
    rfl

theorem LockTransition.fresh_le (h : LockTransition W s a t) : s.fresh ≤ t.fresh := by
  cases h with
  | reject => exact Nat.le_succ _
  | acquire => exact Nat.le_succ _
  | _ => exact le_rfl

theorem LockTransition.managers (h : LockTransition W s a t) (n : Id) :
    (∃ now, a = .applyNext n now ∧
      (s.raft.nodes n).applyNext.2 = none ∧ t.managers n = s.managers n) ∨
    (∃ now entry, a = .applyNext n now ∧ (s.raft.nodes n).applyNext.2 = some entry ∧
      t.managers n = (s.managers n).applyEntry now entry) ∨
    ((∀ now, a ≠ .applyNext n now) ∧ (t.managers n).locks = (s.managers n).locks ∧
      (t.managers n).history = (s.managers n).history) := by
  have hset {k : Id} {m : LockManager Client Resource Nat} (hl : m.locks = (s.managers k).locks)
      (hh : m.history = (s.managers k).history) :
      (Function.update s.managers k m n).locks = (s.managers n).locks ∧
        (Function.update s.managers k m n).history = (s.managers n).history := by
    by_cases hn : n = k
    · subst hn
      rw [Function.update_self]
      exact ⟨hl, hh⟩
    · rw [Function.update_of_ne hn]
      exact ⟨rfl, rfl⟩
  cases h with
  | acquire k client resource lockType timeout =>
    exact .inr (.inr ⟨nofun, hset rfl rfl⟩)
  | deny k i raft' hs c hc hd m hm =>
    refine .inr (.inr ⟨nofun, ?_⟩)
    cases hm with
    | inl hm => exact hset (by rw [hm]) (by rw [hm])
    | inr hm => exact hset (by rw [hm]; rfl) (by rw [hm]; rfl)
  | giveUp j c hc hd => exact .inr (.inr ⟨nofun, hset rfl rfl⟩)
  | cancel j c hc => exact .inr (.inr ⟨nofun, hset rfl rfl⟩)
  | apply k now raft' hs =>
    by_cases hn : n = k
    · subst hn
      cases he : (s.raft.nodes n).applyNext.2 with
      | none => exact .inl ⟨now, rfl, rfl, rfl⟩
      | some entry => exact .inr (.inl ⟨now, entry, rfl, rfl, Function.update_self ..⟩)
    · refine .inr (.inr ⟨fun now' hn' => hn (by cases hn'; rfl), ?_⟩)
      cases (s.raft.nodes k).applyNext.2 with
      | none => exact ⟨rfl, rfl⟩
      | some entry =>
        dsimp only
        rw [Function.update_of_ne hn]
        exact ⟨rfl, rfl⟩
  | _ => exact .inr (.inr ⟨nofun, rfl, rfl⟩)

/-- A request is denied that was denied before, or whose call just gave up on it, or
that a node which is not leader rejects without proposing it. -/
theorem LockTransition.denied (h : LockTransition W s a t) (hd : (req, .denied) ∈ t.returned) :
    (req, .denied) ∈ s.returned ∨ (∃ c ∈ s.acquires, denial s a = some c ∧ c.request = req) ∨
      req.requestId = s.fresh ∧ t.fresh = s.fresh + 1 ∧ t.raft = s.raft := by
  have hnew {c : AcquireCall Id Client Resource} {status : LockStatus}
      (hm : (req, .denied) ∈ (c.request, status) :: s.returned) :
      (req, .denied) ∈ s.returned ∨ c.request = req ∧ status = .denied := by
    cases List.mem_cons.mp hm with
    | inl he =>
      cases he
      exact .inr ⟨rfl, rfl⟩
    | inr hm => exact .inl hm
  cases h with
  | reject n client resource lockType timeout =>
    cases List.mem_cons.mp hd with
    | inl he =>
      cases he
      exact .inr (.inr ⟨rfl, rfl, rfl⟩)
    | inr hd => exact .inl hd
  | deny n k raft' hs c hc hden m hm =>
    exact (hnew hd).imp_right fun h => .inl ⟨c, hc, hden, h.1⟩
  | wake j c hc status hden => exact (hnew hd).imp_right fun h => .inl ⟨c, hc, hden h.2, h.1⟩
  | giveUp j c hc hden => exact (hnew hd).imp_right fun h => .inl ⟨c, hc, hden, h.1⟩
  | _ => exact .inl hd

theorem LockTransition.acquires (h : LockTransition W s a t)
    {c : AcquireCall Id Client Resource} (hc : c ∈ t.acquires) :
    (∃ d ∈ s.acquires, c.request = d.request) ∨
      c.request.requestId = s.fresh ∧ t.fresh = s.fresh + 1 := by
  have hresume {d : AcquireCall Id Client Resource} {phase : Phase} (hd : d ∈ s.acquires)
      (hm : c ∈ s.acquires.erase d ++ [{ d with phase := phase }]) :
      ∃ d ∈ s.acquires, c.request = d.request := by
    cases List.mem_append.mp hm with
    | inl hm => exact ⟨c, List.mem_of_mem_erase hm, rfl⟩
    | inr hm =>
      rw [List.mem_singleton.mp hm]
      exact ⟨d, hd, rfl⟩
  cases h with
  | acquire n client resource lockType timeout =>
    cases List.mem_append.mp hc with
    | inl hc => exact .inl ⟨c, hc, rfl⟩
    | inr hc =>
      rw [List.mem_singleton.mp hc]
      exact .inr ⟨rfl, rfl⟩
  | commit n k raft' hs d hd => exact .inl (hresume hd hc)
  | deny n k raft' hs d hd hden m hm => exact .inl ⟨c, List.mem_of_mem_erase hc, rfl⟩
  | wake j d hd status hden => exact .inl ⟨c, List.mem_of_mem_erase hc, rfl⟩
  | giveUp j d hd hden => exact .inl ⟨c, List.mem_of_mem_erase hc, rfl⟩
  | cancel j d hd => exact .inl (hresume hd hc)
  | _ => exact .inl ⟨c, hc, rfl⟩

omit [DecidableEq Addr] in
theorem safeStep_of_not_internal {Cmd : Type} {r : Action Id Cmd} (h : internal r = false)
    (s : Cluster Id Addr Cmd) : SafeStep W s r := by
  cases r with
  | propose => exact ⟨nofun, nofun, nofun⟩
  | finishPropose => exact ⟨nofun, nofun, nofun⟩
  | applyNext => exact ⟨nofun, nofun, nofun⟩
  | _ => cases h

theorem raft_reach (h : (service W Client Resource).Reach (FinalDenials W) s) :
    (Raft.raft W _).Reach (SafeStep W) s.raft := by
  refine h.invariant (I := fun s => (Raft.raft W _).Reach (SafeStep W) s.raft) .init
    fun s a t _ hr hg hs => ?_
  cases (service_cases hs).raft_step with
  | inl he => rwa [he]
  | inr h =>
    obtain ⟨r, hr'⟩ := h
    refine .step hr ?_ hr'.step
    cases hr'.internal with
    | inl ha =>
      subst ha
      exact hg.1
    | inr hi => exact safeStep_of_not_internal hi s.raft

def applied (s : LockCluster Id Addr Client Resource) (n : Id) :
    List (LogEntry Id (LockCommand Client Resource Nat)) :=
  (appliedBy s.raft.history n).map Prod.snd

/-- The last entry of `l` cancels the request, the rest acquires but does not grant it. -/
def Withdraws (l : List (LogEntry Id (LockCommand Client Resource Nat)))
    (req : LockRequest Client Resource Nat) : Prop :=
  ∃ l' e, l = l' ++ [e] ∧
    e.command = .client (.cancel req.requestId req.clientId req.resourceId) ∧
    .acquire req ∈ commands l' ∧ req ∉ (Table.free.replay (commands l')).2

/-- The request cannot be granted any more: its command occurs nowhere, or it is withdrawn
by something a quorum stored. -/
def Settled (W : Wiring Id Addr) (s : LockCluster Id Addr Client Resource)
    (req : LockRequest Client Resource Nat) : Prop :=
  req.requestId < s.fresh ∧
    ((∀ e i, OccursAt s.raft e i → e.command ≠ .client (.acquire req)) ∨
      ∃ l b, Safe W s.raft.history l b ∧ Withdraws l req)

structure DenialInv (W : Wiring Id Addr) (s : LockCluster Id Addr Client Resource) : Prop where
  manager : ∀ n, Replays (s.managers n) (applied s n)
  occurs_lt : ∀ e i q, OccursAt s.raft e i → e.command = .client (.acquire q) →
    q.requestId < s.fresh
  unique : ∀ e i q e' i' q', OccursAt s.raft e i → e.command = .client (.acquire q) →
    OccursAt s.raft e' i' → e'.command = .client (.acquire q') → q.requestId = q'.requestId → i = i'
  call_lt : ∀ c ∈ s.acquires, c.request.requestId < s.fresh
  denied : ∀ req, (req, .denied) ∈ s.returned → Settled W s req

theorem LockTransition.applied_cases (h : LockTransition W s a t) (hM : MachineInv W s.raft)
    (n : Id) :
    (∀ now, a ≠ .applyNext n now) ∧ applied t n = applied s n ∨
    ∃ now e, a = .applyNext n now ∧ (s.raft.nodes n).applyNext.2 = some e ∧
      applied t n = applied s n ++ [e] := by
  have hsame (ha : ∀ now, a ≠ .applyNext n now) : applied t n = applied s n := by
    unfold applied
    cases h.raft_step with
    | inl he => rw [he]
    | inr hr =>
      obtain ⟨r, hr⟩ := hr
      cases applied_step hr.step n with
      | inl happ => rw [happ.2]
      | inr happ =>
        obtain ⟨now, hn⟩ := hr.applies n happ.1
        exact absurd hn (ha now)
  cases h with
  | apply k now raft' hs =>
    by_cases hn : n = k
    · subst hn
      have hstep : (Raft.raft W _).step s.raft (.applyNext n) = some raft' := hs
      cases step_cases hstep with
      | apply _ hlt =>
        have hlen : (s.raft.nodes n).lastApplied < (s.raft.nodes n).log.length :=
          hlt.trans_le (hM.commit_le n)
        have he := List.getElem?_eq_getElem hlen
        refine .inr ⟨now, _, rfl, he, ?_⟩
        cases applied_step hstep n with
        | inl happ =>
          have hla := happ.1
          rw [move_self] at hla
          exact absurd hla (Nat.succ_ne_self _)
        | inr happ =>
          unfold applied
          rw [happ.2.2.2.2 _ he, List.map_append]
          rfl
    · refine .inl ((fun hne => ⟨hne, hsame hne⟩) fun now' he => ?_)
      cases he
      exact hn rfl
  | _ => exact .inl ⟨nofun, hsame nofun⟩

theorem DenialInv.manager_step (h : DenialInv W s) (ht : LockTransition W s a t)
    (hM : MachineInv W s.raft) (n : Id) : Replays (t.managers n) (applied t n) := by
  cases ht.applied_cases hM n with
  | inl happ =>
    rcases ht.managers n with ⟨now, ha, -⟩ | ⟨now, entry, ha, -⟩ | ⟨-, hl, hh⟩
    · exact absurd ha (happ.1 now)
    · exact absurd ha (happ.1 now)
    · rw [happ.2]
      exact (h.manager n).of_same hl hh
  | inr happ =>
    obtain ⟨now, e, ha, he, happ⟩ := happ
    rcases ht.managers n with ⟨-, -, hnone, -⟩ | ⟨now', entry, -, hentry, hm⟩ | ⟨hne, -⟩
    · rw [he] at hnone
      cases hnone
    · rw [he] at hentry
      cases hentry
      rw [hm, happ]
      exact (h.manager n).entry now' e
    · exact absurd ha (hne now)

theorem occursAt_cases {e : LogEntry Id (LockCommand Client Resource Nat)} {i : Nat}
    {q : LockRequest Client Resource Nat} (ht : LockTransition W s a t) (ho : OccursAt t.raft e i)
    (hq : e.command = .client (.acquire q)) : OccursAt s.raft e i ∨
      q.requestId = s.fresh ∧ t.fresh = s.fresh + 1 ∧
        ∃ n, acquiringNode a = some n ∧ i = (s.raft.nodes n).log.length := by
  cases ht.raft_step with
  | inl he => exact .inl (he ▸ ho)
  | inr hr =>
    obtain ⟨r, hr⟩ := hr
    cases occursAt_step hr.step ho with
    | inl ho => exact .inl ho
    | inr hf =>
      cases hf.command with
      | inl hn =>
        obtain ⟨n, hn⟩ := hn
        rw [hq] at hn
        cases hn
      | inr hc =>
        obtain ⟨n, c, hrc, hec, -, hi⟩ := hc
        subst hrc
        rw [hq] at hec
        cases hec
        obtain ⟨hid, hfresh, hn⟩ := hr.proposes n q rfl
        exact .inr ⟨hid, hfresh, n, hn, hi⟩

end Steps

section Invariant
variable (h : DenialInv W s) (ht : LockTransition W s a t)
include h ht

theorem DenialInv.occurs_lt_step {e : LogEntry Id (LockCommand Client Resource Nat)} {i : Nat}
    {q : LockRequest Client Resource Nat} (ho : OccursAt t.raft e i)
    (hq : e.command = .client (.acquire q)) : q.requestId < t.fresh := by
  cases occursAt_cases ht ho hq with
  | inl ho => exact (h.occurs_lt e i q ho hq).trans_le ht.fresh_le
  | inr hn =>
    obtain ⟨hid, hfresh, -⟩ := hn
    omega

theorem DenialInv.unique_step {e e' : LogEntry Id (LockCommand Client Resource Nat)} {i i' : Nat}
    {q q' : LockRequest Client Resource Nat} (ho : OccursAt t.raft e i)
    (hq : e.command = .client (.acquire q)) (ho' : OccursAt t.raft e' i')
    (hq' : e'.command = .client (.acquire q')) (hid : q.requestId = q'.requestId) : i = i' := by
  cases occursAt_cases ht ho hq with
  | inl ho =>
    cases occursAt_cases ht ho' hq' with
    | inl ho' => exact h.unique e i q e' i' q' ho hq ho' hq' hid
    | inr hn' =>
      have hlt := h.occurs_lt e i q ho hq
      exact absurd hlt (by omega)
  | inr hn =>
    cases occursAt_cases ht ho' hq' with
    | inl ho' =>
      have hlt := h.occurs_lt e' i' q' ho' hq'
      exact absurd hlt (by omega)
    | inr hn' =>
      obtain ⟨-, -, n, hn, hi⟩ := hn
      obtain ⟨-, -, n', hn', hi'⟩ := hn'
      rw [hn] at hn'
      cases hn'
      exact hi.trans hi'.symm

theorem DenialInv.call_lt_step (c : AcquireCall Id Client Resource) (hc : c ∈ t.acquires) :
    c.request.requestId < t.fresh := by
  cases ht.acquires hc with
  | inl hd =>
    obtain ⟨d, hd, he⟩ := hd
    exact he ▸ (h.call_lt d hd).trans_le ht.fresh_le
  | inr hn => omega

end Invariant

theorem Settled.step (hs : Settled W s req) (ht : LockTransition W s a t)
    (g : t.raft = s.raft ∨ Stage W s.raft t.raft) : Settled W t req := by
  obtain ⟨hlt, hs⟩ := hs
  refine ⟨hlt.trans_le ht.fresh_le, ?_⟩
  cases hs with
  | inl hnone =>
    refine .inl fun e i ho hq => ?_
    cases occursAt_cases ht ho hq with
    | inl ho => exact hnone e i ho hq
    | inr hn => omega
  | inr hw =>
    obtain ⟨l, b, hsafe, hw⟩ := hw
    refine .inr ⟨l, b, ?_, hw⟩
    cases g with
    | inl he => rwa [he]
    | inr g => exact hsafe.mono g le_rfl

omit [DecidableEq Id] [DecidableEq Addr] [DecidableEq Client] [DecidableEq Resource] in
theorem Forgotten.not_occursAt {c : Cluster Id Addr (LockCommand Client Resource Nat)}
    (h : Forgotten c req) {e : LogEntry Id (LockCommand Client Resource Nat)} {i : Nat}
    (ho : OccursAt c e i) : e.command ≠ .client (.acquire req) := by
  intro hc
  cases ho with
  | log n hi => exact h.1 n (List.mem_map.mpr ⟨e, List.mem_of_getElem? hi, hc⟩)
  | request src origin peer r nextIdx reply j hm hj hi =>
    exact h.2 _ hm (List.mem_map.mpr ⟨e, List.mem_of_getElem? hj, hc⟩)

omit [DecidableEq Addr] [DecidableEq Id] in
theorem Withdrawn.withdraws {x : RaftNode Id Addr (LockCommand Client Resource Nat)}
    (h : Withdrawn x req) : ∃ l, l <+: x.log.take x.commitIndex ∧ Withdraws l req := by
  obtain ⟨j, hj, hcancel, hacquire, hgranted⟩ := h
  obtain ⟨e, he, hc⟩ := Option.map_eq_some_iff.mp hcancel
  obtain ⟨hlt, he⟩ := List.getElem?_eq_some_iff.mp he
  refine ⟨x.log.take (j + 1), List.take_prefix_take_left hj, x.log.take j, e, ?_, hc, ?_, ?_⟩
  · rw [← he, List.take_append_getElem hlt]
  · obtain ⟨d, hd, hdc⟩ := List.mem_map.mp hacquire
    exact mem_commands.mpr ⟨d, hd, hdc⟩
  · rwa [(replays_replayed _).granted, List.mem_reverse] at hgranted

theorem DenialInv.denied_step (h : DenialInv W s) (ht : LockTransition W s a t)
    (g : t.raft = s.raft ∨ Stage W s.raft t.raft) (hM : MachineInv W s.raft)
    (hg : FinalDenials W s a) (hd : (req, .denied) ∈ t.returned) : Settled W t req := by
  rcases ht.denied hd with hd | ⟨c, hc, hden, rfl⟩ | ⟨hid, hfresh, hraft⟩
  · exact (h.denied req hd).step ht g
  · refine Settled.step ⟨h.call_lt c hc, ?_⟩ ht g
    cases hg.2 c hden with
    | inl hf => exact .inl fun e i ho => hf.not_occursAt ho
    | inr hw =>
      obtain ⟨l, hl, hw⟩ := hw.withdraws
      exact .inr ⟨l, _, (hM.committed c.node).of_isPrefix hl, hw⟩
  · refine ⟨by omega, .inl fun e i ho hq => ?_⟩
    have hlt := h.occurs_lt e i req (hraft ▸ ho) hq
    omega

theorem DenialInv.init : DenialInv W (service W Client Resource).init where
  manager n := replays_nil
  occurs_lt e i q ho := by
    cases ho with
    | log n hi => cases hi
    | request _ _ _ _ _ _ _ hm => cases hm
  unique e i q e' i' q' ho := by
    cases ho with
    | log n hi => cases hi
    | request _ _ _ _ _ _ _ hm => cases hm
  call_lt c hc := by cases hc
  denied req hd := by cases hd

theorem denialInv_reach (hW : W.Complete)
    (h : (service W Client Resource).Reach (FinalDenials W) s) : DenialInv W s := by
  refine h.invariant (I := DenialInv W) .init fun s a t hr hi hg hs => ?_
  have ht := service_cases hs
  have hraft := raft_reach hr
  have hM := MachineInv.reach hW hraft (disciplined_of_safeStep hW hraft)
  have g : t.raft = s.raft ∨ Stage W s.raft t.raft := by
    cases ht.raft_step with
    | inl he => exact .inl he
    | inr hstep =>
      obtain ⟨r, hstep⟩ := hstep
      have hnext := raft_reach (.step hr hg hs)
      exact .inr (.of_reach hraft hstep.step (disciplined_of_safeStep hW hnext))
  exact
    { manager := hi.manager_step ht hM
      occurs_lt := fun e i q ho hq => hi.occurs_lt_step ht ho hq
      unique := fun e i q e' i' q' ho hq ho' hq' hid => hi.unique_step ht ho hq ho' hq' hid
      call_lt := hi.call_lt_step ht
      denied := fun req hd => hi.denied_step ht g hM hg hd }

section Final
variable (hM : MachineInv W s.raft) (h : DenialInv W s)
omit [DecidableEq Addr]
include hM

omit [DecidableEq Client] [DecidableEq Resource] in
theorem occursAt_applied {n : Id} {e : LogEntry Id (LockCommand Client Resource Nat)} {i : Nat}
    (he : (applied s n)[i]? = some e) : OccursAt s.raft e i := by
  unfold applied at he
  rw [(hM.applied n).2] at he
  have hi := (List.getElem?_eq_some_iff.mp he).1
  rw [List.length_take] at hi
  rw [List.getElem?_take_of_lt (by omega)] at he
  exact .log n he

include h

/-- What a manager applied after a cancelled request does not acquire it again. -/
theorem DenialInv.not_acquired_again {n : Id}
    {l l' : List (LogEntry Id (LockCommand Client Resource Nat))} (hl : applied s n = l ++ l')
    (ha : .acquire req ∈ commands l) : .acquire req ∉ commands l' := by
  intro ha'
  obtain ⟨e, he, hc⟩ := mem_commands.mp ha
  obtain ⟨e', he', hc'⟩ := mem_commands.mp ha'
  obtain ⟨i, hi⟩ := List.mem_iff_getElem?.mp he
  obtain ⟨i', hi'⟩ := List.mem_iff_getElem?.mp he'
  have hlt := (List.getElem?_eq_some_iff.mp hi).1
  have ho : OccursAt s.raft e i := occursAt_applied hM (n := n) (by
    rw [hl, List.getElem?_append_left hlt, hi])
  have ho' : OccursAt s.raft e' (l.length + i') := occursAt_applied hM (n := n) (by
    rw [hl, List.getElem?_append_right (Nat.le_add_right _ _), Nat.add_sub_cancel_left, hi'])
  have heq := h.unique e i req e' _ req ho hc ho' hc' rfl
  omega

theorem Settled.not_granted (hs : Settled W s req)
    (hcmp : ∀ n l b, Safe W s.raft.history l b → l <+: applied s n ∨ applied s n <+: l) (n : Id) :
    req ∉ (s.managers n).grantedRequests := by
  rw [(h.manager n).granted, List.mem_reverse]
  intro hgr
  cases hs.2 with
  | inl hnone =>
    cases Table.acquire_of_replay hgr with
    | inl ha =>
      obtain ⟨e, he, hc⟩ := mem_commands.mp ha
      obtain ⟨i, hi⟩ := List.mem_iff_getElem?.mp he
      exact hnone e i (occursAt_applied hM hi) hc
    | inr hq => exact Table.not_queues_free req hq
  | inr hw =>
    obtain ⟨l, b, hsafe, l', e, rfl, hc, ha, hnot⟩ := hw
    have hbefore {l'' : List (LogEntry Id (LockCommand Client Resource Nat))}
        (hp : applied s n <+: l'') (hl : req ∉ (Table.free.replay (commands l'')).2) : False := by
      obtain ⟨rest, rfl⟩ := hp
      rw [commands_append, Table.replay_append] at hl
      exact hl (List.mem_append_left _ hgr)
    have hcancel : commands [e] = [.cancel req.requestId req.clientId req.resourceId] := by
      simp [commands, hc]
    cases hcmp n _ b hsafe with
    | inl hp =>
      obtain ⟨rest, hrest⟩ := hp
      rw [← hrest, commands_append, commands_append, hcancel, Table.replay_append,
        Table.replay_concat] at hgr
      have hagain := h.not_acquired_again hM hrest.symm (by
        rw [commands_append]
        exact List.mem_append_left _ ha)
      cases List.mem_append.mp hgr with
      | inl hgr => exact hnot (by simpa [Table.grants] using hgr)
      | inr hgr =>
        cases Table.acquire_of_replay hgr with
        | inl ha' => exact hagain ha'
        | inr hq =>
          exact Table.not_queues_cancel (Table.free.replay (commands l')).1 req req.clientId hq
    | inr hp =>
      refine hbefore hp ?_
      rw [commands_append, hcancel, Table.replay_concat]
      simpa [Table.grants] using hnot

end Final

/-- A denied acquire is final, in runs that keep Raft's disciplines and in which requests
are denied only once they are forgotten or withdrawn. -/
theorem denialsFinal_of_finalDenials (hW : W.Complete)
    (hr : (service W Client Resource).Reach (FinalDenials W) s) : DenialsFinal s := by
  intro req hd n hheld
  have hraft := raft_reach hr
  have hdisc := disciplined_of_safeStep hW hraft
  have hM := MachineInv.reach hW hraft hdisc
  have h := denialInv_reach hW hr
  have hgr := mem_granted_of_stands hheld.2
  refine (h.denied req hd).not_granted hM h (fun n l b hsafe => ?_) n hgr
  exact hsafe.comparable hW (.reach hraft) (.reach hraft hdisc.elections) (.reach hraft hdisc)
    (.reach hraft hdisc) hdisc.elections (hM.safe_applied n)

/-- Client 8 queues behind client 7, its wait times out, and its `lock_cancel` commits. -/
def cancelled : List (LockAction (Fin 3) Nat Nat) :=
  [.raft (.electionTimeout 0), .raft (.deliver 0), .raft (.deliver 0),
   .acquire 0 7 5 .exclusive 30, .acquire 0 8 5 .exclusive 30, .raft (.runTask 0 0),
   .raft (.runTask 0 2), .raft (.deliver 1), .raft (.deliver 1), .finishPropose 0 2,
   .applyNext 0 0, .applyNext 0 0, .applyNext 0 0, .waitTimeout 1, .raft (.runTask 0 0),
   .raft (.runTask 0 2), .raft (.runTask 0 2), .raft (.runTask 0 3), .raft (.deliver 1),
   .raft (.deliver 1), .finishPropose 0 2]

theorem denialsFinal_cancelled :
    ∃ s, (service (mesh 3) Nat Nat).runIf (FinalDenials (mesh 3)) (service (mesh 3) Nat Nat).init
        cancelled = some s ∧
      (⟨1, 8, 5, .exclusive, 30⟩, .denied) ∈ s.returned ∧ DenialsFinal s := by
  have hrun : ((service (mesh 3) Nat Nat).runIf (FinalDenials (mesh 3))
      (service (mesh 3) Nat Nat).init cancelled).any (fun s =>
        (⟨1, 8, 5, .exclusive, 30⟩, .denied) ∈ s.returned) = true := by
    decide +kernel
  obtain ⟨s, hs, hl⟩ := (Option.any_eq_true ..).mp hrun
  exact ⟨s, hs, of_decide_eq_true hl,
    denialsFinal_of_finalDenials (mesh_complete 3) (System.Reach.init.runIf hs)⟩

/-- The proposal of client 7 times out; then its entry is replicated, committed and applied. -/
def granted : List (LockAction (Fin 3) Nat Nat) :=
  [.raft (.electionTimeout 0), .raft (.deliver 0), .raft (.deliver 0),
   .acquire 0 7 5 .exclusive 30, .finishPropose 0 1, .raft (.runTask 0 0), .raft (.runTask 0 1),
   .raft (.deliver 1), .raft (.deliver 1), .applyNext 0 0, .applyNext 0 0]

theorem not_denialsFinal_granted :
    ∃ s, (service (mesh 3) Nat Nat).run (service (mesh 3) Nat Nat).init granted = some s ∧
      ¬ DenialsFinal s := by
  have hrun : ((service (mesh 3) Nat Nat).run (service (mesh 3) Nat Nat).init granted).any (fun s =>
      (⟨0, 7, 5, .exclusive, 30⟩, .denied) ∈ s.returned ∧
        (s.managers 0).HeldBy ⟨0, 7, 5, .exclusive, 30⟩) = true := by
    decide +kernel
  obtain ⟨s, hs, hl⟩ := (Option.any_eq_true ..).mp hrun
  obtain ⟨hd, hheld⟩ := of_decide_eq_true hl
  exact ⟨s, hs, fun h => h _ hd 0 hheld⟩

end DistSync.Locking
