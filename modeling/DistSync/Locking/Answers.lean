import DistSync.Locking.Timeline

/-! What callers of `acquire` are told. No call is answered twice, and GRANTED is the answer
only to a request that the caller's lock manager has granted, in every run of the service. -/
namespace DistSync.Locking
open Raft

section Manager
variable {Client Resource Request : Type}
  [DecidableEq Client] [DecidableEq Resource] [DecidableEq Request]
variable {m m' : LockManager Client Resource Request}

def LockManager.Truthful (m : LockManager Client Resource Request) : Prop :=
  ∀ q status, m.results.get? q = some status →
    status = .denied ∨ status = .granted ∧ ∃ req ∈ m.grantedRequests, req.requestId = q

omit [DecidableEq Client] [DecidableEq Resource] in
theorem LockManager.Truthful.of_same (h : m.Truthful) (hr : m'.results = m.results)
    (hh : m.grantedRequests ⊆ m'.grantedRequests) : m'.Truthful := by
  intro q status hq
  refine (h q status (hr ▸ hq)).imp_right fun hx => ?_
  obtain ⟨hs, req, hreq, hid⟩ := hx
  exact ⟨hs, req, hh hreq, hid⟩

omit [DecidableEq Client] [DecidableEq Resource] in
theorem LockManager.Truthful.resolveFuture (h : m.Truthful) {q : Request} {status : LockStatus}
    (hs : status = .denied ∨ status = .granted ∧ ∃ req ∈ m.grantedRequests, req.requestId = q) :
    (m.resolveFuture q status).Truthful := by
  unfold LockManager.resolveFuture
  split
  · intro q' status' hq
    change (m.results.set q status).get? q' = some status' at hq
    rw [Dict.get?_set] at hq
    split at hq
    · rename_i he
      cases hq
      exact he ▸ hs
    · exact h q' status' hq
  · exact h

theorem keeps_truthful : Keeps fun m : LockManager Client Resource Request => m.Truthful where
  acquire {m} h now req := by
    unfold LockManager.applyAcquire
    dsimp only
    split
    · refine LockManager.Truthful.resolveFuture ?_ (.inr ⟨rfl, req, ?_, rfl⟩)
      · exact h.of_same rfl (List.subset_cons_self req m.grantedRequests)
      · exact List.mem_cons_self
    · exact h.of_same rfl (List.Subset.refl _)
  pop {m} h r := by
    unfold LockManager.popWaiter
    split
    · exact h.of_same rfl (List.Subset.refl _)
    · exact h
  drop h _ _ := h.of_same rfl (List.Subset.refl _)
  erase h _ _ := h.of_same rfl (List.Subset.refl _)
  cancel h q r := by
    unfold LockManager.applyCancel
    refine LockManager.Truthful.resolveFuture ?_ (.inl rfl)
    exact h.of_same rfl (List.Subset.refl _)

omit [DecidableEq Client] [DecidableEq Resource] [DecidableEq Request] in
theorem mem_grantedRequests {req : LockRequest Client Resource Request} :
    req ∈ m.grantedRequests ↔ ∃ now, .granted req now ∈ m.history := by
  simp only [LockManager.grantedRequests, List.mem_filterMap]
  constructor
  · intro hx
    obtain ⟨e, he, hreq⟩ := hx
    cases e with
    | granted req' now =>
      cases hreq
      exact ⟨now, he⟩
    | _ => cases hreq
  · intro hx
    obtain ⟨now, he⟩ := hx
    exact ⟨_, he, rfl⟩

theorem keeps_mem_history (e : LockEvent Client Resource Request) :
    Keeps fun m : LockManager Client Resource Request => e ∈ m.history where
  acquire {m} h now req := by
    unfold LockManager.applyAcquire
    dsimp only
    split
    · rw [resolveFuture_history]
      exact List.mem_cons_of_mem _ h
    · exact List.mem_cons_of_mem _ h
  pop {m} h r := by
    unfold LockManager.popWaiter
    split <;> exact h
  drop h _ _ := List.mem_cons_of_mem _ h
  erase h _ _ := h
  cancel h q r := by
    unfold LockManager.applyCancel
    rw [resolveFuture_history]
    exact List.mem_cons_of_mem _ h

end Manager

section Cluster
variable {Id Addr Client Resource : Type}
  [DecidableEq Id] [DecidableEq Addr] [DecidableEq Client] [DecidableEq Resource]
variable {W : Wiring Id Addr} {s t : LockCluster Id Addr Client Resource}
  {a : LockAction Id Client Resource} {req : LockRequest Client Resource Nat}

def AcquireCall.id (c : AcquireCall Id Client Resource) : Nat := c.request.requestId

def callIds (s : LockCluster Id Addr Client Resource) : List Nat :=
  s.acquires.map AcquireCall.id ++ s.returned.map fun p => p.1.requestId

/-- A call keeps its id until it is answered and for ever after; only a new one gets an id. -/
theorem LockTransition.keepsIds (h : LockTransition W s a t) :
    (callIds t).Perm (callIds s) ∧ s.fresh ≤ t.fresh ∨
      (callIds t).Perm (s.fresh :: callIds s) ∧ t.fresh = s.fresh + 1 := by
  have hresume {c : AcquireCall Id Client Resource} {phase : Phase} (hc : c ∈ s.acquires) :
      ((s.acquires.erase c ++ [{ c with phase := phase }]).map AcquireCall.id).Perm
        (s.acquires.map AcquireCall.id) := by
    have hperm := (List.perm_cons_erase hc).map AcquireCall.id
    rw [List.map_append]
    exact (List.perm_append_singleton _ _).trans hperm.symm
  have hanswer {c : AcquireCall Id Client Resource} {status : LockStatus} (hc : c ∈ s.acquires) :
      ((s.acquires.erase c).map AcquireCall.id ++
        ((c.request, status) :: s.returned).map fun p => p.1.requestId).Perm (callIds s) := by
    have hperm := (List.perm_cons_erase hc).map AcquireCall.id
    rw [List.map_cons]
    exact List.perm_middle.trans (hperm.symm.append_right _)
  cases h with
  | reject n client resource lockType timeout => exact .inr ⟨List.perm_middle, rfl⟩
  | acquire n client resource lockType timeout =>
    refine .inr ⟨?_, rfl⟩
    unfold callIds
    rw [List.map_append]
    exact (List.perm_append_singleton _ _).append_right _
  | commit n k raft' hs c hc => exact .inl ⟨(hresume hc).append_right _, le_rfl⟩
  | deny n k raft' hs c hc hd m hm => exact .inl ⟨hanswer hc, le_rfl⟩
  | wake j c hc status hd => exact .inl ⟨hanswer hc, le_rfl⟩
  | giveUp j c hc hd => exact .inl ⟨hanswer hc, le_rfl⟩
  | cancel j c hc => exact .inl ⟨(hresume hc).append_right _, le_rfl⟩
  | _ => exact .inl ⟨.refl _, le_rfl⟩

theorem callIds_reach {guard : LockCluster Id Addr Client Resource →
      LockAction Id Client Resource → Prop}
    (h : (service W Client Resource).Reach guard s) :
    (callIds s).Nodup ∧ ∀ q ∈ callIds s, q < s.fresh := by
  refine h.invariant (I := fun s => (callIds s).Nodup ∧ ∀ q ∈ callIds s, q < s.fresh)
    (by simp [service, callIds]) fun s a t _ hi _ hs => ?_
  obtain ⟨hn, hlt⟩ := hi
  rcases (service_cases hs).keepsIds with ⟨hp, hf⟩ | ⟨hp, hf⟩
  · exact ⟨hp.nodup_iff.mpr hn, fun q hq => (hlt q (hp.mem_iff.mp hq)).trans_le hf⟩
  · refine ⟨hp.nodup_iff.mpr (List.nodup_cons.mpr ⟨fun hm => (hlt _ hm).ne rfl, hn⟩), ?_⟩
    intro q hq
    rw [hf]
    cases List.mem_cons.mp (hp.mem_iff.mp hq) with
    | inl he => exact he ▸ Nat.lt_succ_self _
    | inr hm => exact (hlt q hm).trans (Nat.lt_succ_self _)

/-- The request is the one issued under its id, in the book of issued requests `f`. -/
def Issued (f : Nat → Option (LockRequest Client Resource Nat)) (bound : Nat)
    (req : LockRequest Client Resource Nat) : Prop :=
  req.requestId < bound ∧ f req.requestId = some req

def issue (f : Nat → Option (LockRequest Client Resource Nat))
    (s : LockCluster Id Addr Client Resource) :
    LockAction Id Client Resource → Nat → Option (LockRequest Client Resource Nat)
  | .acquire _ client resource lockType timeout =>
    Function.update f s.fresh (some ⟨s.fresh, client, resource, lockType, timeout⟩)
  | _ => f

variable {f : Nat → Option (LockRequest Client Resource Nat)}

theorem Issued.step (h : Issued f s.fresh req) (ht : LockTransition W s a t) :
    Issued (issue f s a) t.fresh req := by
  refine ⟨h.1.trans_le ht.fresh_le, ?_⟩
  cases a with
  | acquire n client resource lockType timeout => exact (Function.update_of_ne h.1.ne ..).trans h.2
  | _ => exact h.2

omit [DecidableEq Id] [DecidableEq Addr] [DecidableEq Client] [DecidableEq Resource] in
theorem issued_new (n : Id) (client : Client) (resource : Resource) (lockType : LockType)
    (timeout : Rat) : Issued (issue f s (.acquire n client resource lockType timeout))
      (s.fresh + 1) ⟨s.fresh, client, resource, lockType, timeout⟩ :=
  ⟨Nat.lt_succ_self _, Function.update_self ..⟩

/-- Whatever request is about, in a log, a message, a manager or a call, is the one that was
issued under its id. -/
structure IssuedOnly (s : LockCluster Id Addr Client Resource)
    (f : Nat → Option (LockRequest Client Resource Nat)) : Prop where
  occurs : ∀ e i q, OccursAt s.raft e i → e.command = .client (.acquire q) → Issued f s.fresh q
  manager : ∀ n, ∃ l : List (LogEntry Id (LockCommand Client Resource Nat)),
    Replays (s.managers n) l ∧ ∀ q, .acquire q ∈ commands l → Issued f s.fresh q
  call : ∀ c ∈ s.acquires, Issued f s.fresh c.request

section Step
variable (h : IssuedOnly s f) (ht : LockTransition W s a t)
include h ht

theorem IssuedOnly.occurs_step {e : LogEntry Id (LockCommand Client Resource Nat)} {i : Nat}
    (ho : OccursAt t.raft e i) (hq : e.command = .client (.acquire req)) :
    Issued (issue f s a) t.fresh req := by
  have hold (ho : OccursAt s.raft e i) : Issued (issue f s a) t.fresh req :=
    (h.occurs e i req ho hq).step ht
  cases occursAt_cases ht ho hq with
  | inl ho => exact hold ho
  | inr hn =>
    obtain ⟨-, -, k, hk, -⟩ := hn
    cases ht with
    | acquire n client resource lockType timeout =>
      have hstep : (Raft.raft W _).step s.raft
          (.propose n (.acquire ⟨s.fresh, client, resource, lockType, timeout⟩)) = some
            (s.raft.propose n (.acquire ⟨s.fresh, client, resource, lockType, timeout⟩)) := rfl
      cases occursAt_step hstep ho with
      | inl ho => exact hold ho
      | inr hf =>
        rcases hf.command with ⟨m, hm⟩ | ⟨m, c, hc, hec, -⟩
        · cases hq.symm.trans hm
        · cases hc
          cases hq.symm.trans hec
          exact issued_new n client resource lockType timeout
    | reject n client resource lockType timeout => exact hold ho
    | _ => cases hk

theorem IssuedOnly.manager_step (n : Id) :
    ∃ l : List (LogEntry Id (LockCommand Client Resource Nat)),
      Replays (t.managers n) l ∧ ∀ q, .acquire q ∈ commands l → Issued (issue f s a) t.fresh q := by
  obtain ⟨l, hl, hq⟩ := h.manager n
  rcases ht.manager n with ⟨now, e, -, he, hm⟩ | ⟨⟨futures, hm⟩, -⟩
  · refine ⟨l ++ [e], hm ▸ hl.entry now e, fun q hmem => ?_⟩
    rw [commands_append] at hmem
    cases List.mem_append.mp hmem with
    | inl hmem => exact (hq q hmem).step ht
    | inr hmem =>
      obtain ⟨e', he', hc⟩ := mem_commands.mp hmem
      rw [List.mem_singleton.mp he'] at hc
      exact (h.occurs e _ q (.log n he) hc).step ht
  · exact ⟨l, hm ▸ hl.of_same rfl rfl, fun q hmem => (hq q hmem).step ht⟩

theorem IssuedOnly.call_step (c : AcquireCall Id Client Resource) (hc : c ∈ t.acquires) :
    Issued (issue f s a) t.fresh c.request := by
  have hold (hc : c ∈ s.acquires) : Issued (issue f s a) t.fresh c.request := (h.call c hc).step ht
  cases ht.acquires hc with
  | inl hd =>
    obtain ⟨d, hd, he⟩ := hd
    exact he ▸ (h.call d hd).step ht
  | inr hn =>
    cases ht with
    | acquire n client resource lockType timeout =>
      cases List.mem_append.mp hc with
      | inl hc => exact hold hc
      | inr hc =>
        rw [List.mem_singleton.mp hc]
        exact issued_new n client resource lockType timeout
    | reject n client resource lockType timeout => exact hold hc
    | _ => exact absurd hn.2 (Nat.succ_ne_self _).symm

end Step

theorem issuedOnly_reach {guard : LockCluster Id Addr Client Resource →
      LockAction Id Client Resource → Prop}
    (h : (service W Client Resource).Reach guard s) : ∃ f, IssuedOnly s f := by
  refine h.invariant (I := fun s => ∃ f, IssuedOnly s f) ⟨fun _ => none, ?_⟩
    fun s a t _ hi _ hs => ?_
  · refine ⟨fun e i q ho => ?_, fun n => ⟨[], replays_nil, by simp [commands]⟩, by simp [service]⟩
    cases ho with
    | log n hi => cases hi
    | request _ _ _ _ _ _ _ hm => cases hm
  · obtain ⟨f, hf⟩ := hi
    have ht := service_cases hs
    exact ⟨issue f s a, fun e i q ho hq => hf.occurs_step ht ho hq, hf.manager_step ht,
      hf.call_step ht⟩

theorem truthful_reach {guard : LockCluster Id Addr Client Resource →
      LockAction Id Client Resource → Prop}
    (h : (service W Client Resource).Reach guard s) (n : Id) : (s.managers n).Truthful := by
  refine h.invariant (I := fun s => (s.managers n).Truthful) (by simp [service, LockManager.Truthful])
    fun s a t _ hi _ hs => ?_
  rcases (service_cases hs).manager n with ⟨now, e, -, -, hm⟩ | ⟨⟨futures, hm⟩, -⟩
  · rw [hm]
    exact keeps_truthful.applyEntry hi now e
  · rw [hm]
    exact hi.of_same rfl (List.Subset.refl _)

theorem answer_cases (hs : (service W Client Resource).step s a = some t) {status : LockStatus}
    (hm : (req, status) ∈ t.returned) : (req, status) ∈ s.returned ∨ status = .denied ∨
      ∃ c ∈ s.acquires, c.request = req ∧
        (s.managers c.node).results.get? req.requestId = some status := by
  have hnew {c : AcquireCall Id Client Resource}
      (hm : (req, status) ∈ (c.request, .denied) :: s.returned) :
      (req, status) ∈ s.returned ∨ status = .denied := by
    cases List.mem_cons.mp hm with
    | inl he => exact .inr (congrArg Prod.snd he)
    | inr hm => exact .inl hm
  cases service_cases hs with
  | reject n client resource lockType timeout =>
    cases List.mem_cons.mp hm with
    | inl he => exact .inr (.inl (congrArg Prod.snd he))
    | inr hm => exact .inl hm
  | deny n k raft' _ c _ _ m _ => exact (hnew hm).imp_right .inl
  | giveUp j c _ _ => exact (hnew hm).imp_right .inl
  | wake j c hc status' hd =>
    simp only [service, LockCluster.step, LockCluster.wake] at hs
    obtain ⟨call, hj, hs⟩ := Option.bind_eq_some_iff.mp hs
    obtain ⟨-, hs⟩ := Option.ite_none_right_eq_some.mp hs
    obtain ⟨status'', hres, he⟩ := Option.map_eq_some_iff.mp hs
    have hret : (call.request, status'') :: s.returned = (c.request, status') :: s.returned :=
      congrArg LockCluster.returned he
    cases List.mem_cons.mp hm with
    | inl hm =>
      cases hm.trans (List.cons.inj hret).1.symm
      exact .inr (.inr ⟨call, List.mem_of_getElem? hj, rfl, hres⟩)
    | inr hm => exact .inl hm
  | _ => exact .inl hm

theorem LockTransition.mem_history (ht : LockTransition W s a t) {n : Id}
    {e : LockEvent Client Resource Nat} (h : e ∈ (s.managers n).history) :
    e ∈ (t.managers n).history := by
  rcases ht.manager n with ⟨now, entry, -, -, hm⟩ | ⟨⟨futures, hm⟩, -⟩
  · rw [hm]
    exact (keeps_mem_history e).applyEntry h now entry
  · rw [hm]
    exact h

omit [DecidableEq Id] [DecidableEq Addr] in
theorem IssuedOnly.granted (h : IssuedOnly s f) {n : Id}
    (hg : req ∈ (s.managers n).grantedRequests) : Issued f s.fresh req := by
  obtain ⟨l, hl, hq⟩ := h.manager n
  rw [hl.granted, List.mem_reverse] at hg
  cases Table.acquire_of_replay hg with
  | inl ha => exact hq req ha
  | inr hqueued => exact absurd hqueued (Table.not_queues_free req)

theorem told_cases {guard : LockCluster Id Addr Client Resource →
      LockAction Id Client Resource → Prop}
    (h : (service W Client Resource).Reach guard s) {status : LockStatus}
    (hm : (req, status) ∈ s.returned) : status = .denied ∨
      status = .granted ∧ ∃ n now, .granted req now ∈ (s.managers n).history := by
  refine h.invariant (I := fun s => (req, status) ∈ s.returned → status = .denied ∨
    status = .granted ∧ ∃ n now, .granted req now ∈ (s.managers n).history) (by simp [service])
    (fun s a t hr hi _ hs hm => ?_) hm
  have ht := service_cases hs
  rcases answer_cases hs hm with hold | hd | ⟨c, hc, rfl, hres⟩
  · refine (hi hold).imp_right fun hx => ?_
    obtain ⟨hst, n, now, hmem⟩ := hx
    exact ⟨hst, n, now, ht.mem_history hmem⟩
  · exact .inl hd
  · refine (truthful_reach hr c.node _ _ hres).imp_right fun hx => ?_
    obtain ⟨hst, req, hreq, hid⟩ := hx
    obtain ⟨f, hf⟩ := issuedOnly_reach hr
    have hsame : req = c.request := by
      have hbook := (hf.granted hreq).2
      rw [hid, (hf.call c hc).2] at hbook
      exact (Option.some.inj hbook).symm
    obtain ⟨now, hmem⟩ := mem_grantedRequests.mp (hsame ▸ hreq)
    exact ⟨hst, c.node, now, ht.mem_history hmem⟩

/-- No `acquire` is answered twice; what it is told is GRANTED or DENIED, and GRANTED only if a
lock manager has granted this very request. -/
theorem answers_truthful (h : (service W Client Resource).Reachable s) :
    (s.returned.map fun p => p.1.requestId).Nodup ∧
      ∀ req status, (req, status) ∈ s.returned → status = .denied ∨
        status = .granted ∧ ∃ n now, .granted req now ∈ (s.managers n).history :=
  ⟨(callIds_reach h).1.of_append_right, fun _ _ hm => told_cases h hm⟩

/-- Client 7 is granted the lock by the leader, client 8 is turned away by another node. -/
def served : List (LockAction (Fin 3) Nat Nat) :=
  [.raft (.electionTimeout 0), .raft (.deliver 0), .raft (.deliver 0), .acquire 0 7 5 .exclusive 30,
   .acquire 1 8 5 .exclusive 30, .raft (.runTask 0 0), .raft (.runTask 0 1), .raft (.deliver 1),
   .raft (.deliver 1), .finishPropose 0 1, .applyNext 0 1, .applyNext 0 2, .wake 0]

theorem answers_truthful_served :
    ∃ s, (service (mesh 3) Nat Nat).run (service (mesh 3) Nat Nat).init served = some s ∧
      s.returned = [(⟨0, 7, 5, .exclusive, 30⟩, .granted), (⟨1, 8, 5, .exclusive, 30⟩, .denied)] ∧
      ∃ n now, .granted ⟨0, 7, 5, .exclusive, 30⟩ now ∈ (s.managers n).history := by
  have hrun : ((service (mesh 3) Nat Nat).run (service (mesh 3) Nat Nat).init served).any (fun s =>
      s.returned = [(⟨0, 7, 5, .exclusive, 30⟩, .granted), (⟨1, 8, 5, .exclusive, 30⟩, .denied)]) =
        true := by
    decide +kernel
  obtain ⟨s, hs, hl⟩ := (Option.any_eq_true ..).mp hrun
  have hret := of_decide_eq_true hl
  refine ⟨s, hs, hret, ?_⟩
  have htrue := (answers_truthful (System.reachable_run hs)).2 ⟨0, 7, 5, .exclusive, 30⟩ .granted
    (by rw [hret]; exact List.mem_cons_self)
  exact (htrue.resolve_left (by simp)).2

end Cluster
end DistSync.Locking
