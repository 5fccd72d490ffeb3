import DistSync.Queue.Ledger

/-! Offsets. `produce` learns a message's offset after it has pushed the message's JSON text,
which therefore says 0; so does every message that is consumed. -/
namespace DistSync.Queue
variable {Node Payload : Type} {cfg : Config Node Payload}
  {s t : Service Node Payload} {a : Action Node Payload}

def producedIds (h : List (Event Node Payload)) : List String :=
  h.filterMap fun
    | .produced msg => some msg.messageId
    | _ => none

def takenMessages (h : List (Event Node Payload)) : List (Message Node Payload) :=
  h.filterMap fun
    | .taken _ msg => some msg
    | _ => none

/-- The offsets that `incr` returned, each with the message of the `produce` that awaited it. -/
def countedOffsets (h : List (Event Node Payload)) : List (String × Nat) :=
  h.filterMap fun
    | .counted messageId offset => some (messageId, offset)
    | _ => none

def lastAcknowledged (h : List (Event Node Payload)) (home : TopicPartition) : Option Nat :=
  ((acknowledgedMessages h).find? fun m => m.home = home).map Message.offset

/-- Consumed messages carry the offsets counted for them. These tell the messages of a
partition apart and grow in the order of first pushes, and acknowledging commits them. -/
structure Service.OffsetsIdentify (s : Service Node Payload) : Prop where
  own : ∀ m ∈ takenMessages s.history, m.messageId ∈ producedIds s.history →
    (m.messageId, m.offset) ∈ countedOffsets s.history
  distinct : ∀ m ∈ takenMessages s.history, ∀ m' ∈ takenMessages s.history,
    m.messageId ∈ producedIds s.history → m'.messageId ∈ producedIds s.history →
      m.home = m'.home → m.messageId ≠ m'.messageId → m.offset ≠ m'.offset
  increasing : ∀ m ∈ takenMessages s.history, ∀ m' ∈ takenMessages s.history,
    m.home = m'.home → [m'.messageId, m.messageId].Sublist (producedIds s.history) →
      m.offset < m'.offset
  committed : ∀ home, s.redis.committed home = lastAcknowledged s.history home

/-- The messages of a call. Those of a `consume` are in flight or gone already. -/
def Call.messages : Call Node Payload → List (Message Node Payload)
  | .rpush msg => [msg]
  | .incr msg => [msg]
  | .execute pipe => pipe
  | .lpop _ _ _ _ _ => []
  | .set msg => [msg]
  | .requeue msg _ => [msg]

structure QueueNode.Unnumbered (x : QueueNode Node Payload) : Prop where
  inFlight : ∀ e ∈ x.inFlight.entries, e.2.offset = 0
  calls : ∀ c ∈ x.calls, ∀ m ∈ c.messages, m.offset = 0

structure Service.Unnumbered (s : Service Node Payload) : Prop where
  nodes : ∀ n, (s.nodes n).Unnumbered
  lists : ∀ home, ∀ m ∈ s.redis.queue home, m.offset = 0
  taken : ∀ m ∈ takenMessages s.history, m.offset = 0

section Node
variable {x : QueueNode Node Payload}

theorem QueueNode.Unnumbered.suspend (h : x.Unnumbered) {c : Call Node Payload}
    (hc : ∀ m ∈ c.messages, m.offset = 0) : (x.suspend c).Unnumbered := by
  refine ⟨h.inFlight, fun c' hc' => ?_⟩
  cases List.mem_append.mp hc' with
  | inl hold => exact h.calls c' hold
  | inr hnew => exact List.mem_singleton.mp hnew ▸ hc

theorem QueueNode.Unnumbered.wake (h : x.Unnumbered) (k : Nat) : (x.wake k).Unnumbered :=
  ⟨h.inFlight, fun c hc => h.calls c (List.mem_of_mem_eraseIdx hc)⟩

theorem QueueNode.Unnumbered.untrack (h : x.Unnumbered) (messageId : String) :
    (x.untrack messageId).Unnumbered :=
  ⟨fun e he => h.inFlight e (List.mem_of_mem_filter he), h.calls⟩

theorem QueueNode.Unnumbered.track (h : x.Unnumbered) {msg : Message Node Payload}
    (hm : msg.offset = 0) : (x.track msg).Unnumbered := by
  refine ⟨fun e he => ?_, h.calls⟩
  have hget : (x.track msg).inFlight.get? e.1 = some e.2 := Dict.get?_eq_some.mpr he
  rw [QueueNode.track, Dict.get?_set] at hget
  split at hget
  · cases hget
    exact hm
  · exact h.inFlight _ (Dict.get?_eq_some.mp hget)

theorem QueueNode.Unnumbered.poll (h : x.Unnumbered) (topic : String) (batchSize : Nat)
    (messages : List (Message Node Payload)) (partitions : List Int) :
    (x.poll topic batchSize messages partitions).1.Unnumbered := by
  cases partitions with
  | nil => exact h
  | cons p rest =>
    simp only [QueueNode.poll]
    split
    · exact h
    · exact h.suspend (by simp [Call.messages])

theorem QueueNode.Unnumbered.offset_eq (h : x.Unnumbered) {messageId : String}
    {msg : Message Node Payload} (hm : x.inFlight.get? messageId = some msg) : msg.offset = 0 :=
  h.inFlight _ (Dict.get?_eq_some.mp hm)

theorem QueueNode.Unnumbered.negativeAcknowledge (h : x.Unnumbered) {messageId : String}
    {timedOut : Option (List String)} {y : QueueNode Node Payload}
    (hy : x.negativeAcknowledge messageId timedOut = some y) : y.Unnumbered := by
  obtain ⟨msg, hm, rfl⟩ := negativeAcknowledge_eq_some hy
  exact (h.untrack messageId).suspend (by simpa [Call.messages] using h.offset_eq hm)

theorem QueueNode.Unnumbered.checkTimedOut (h : x.Unnumbered) (timedOut : List String) :
    (x.checkTimedOut timedOut).Unnumbered := by
  induction timedOut with
  | nil => exact h
  | cons messageId timedOut ih =>
    simp only [QueueNode.checkTimedOut]
    split
    · rename_i y hy
      exact h.negativeAcknowledge hy
    · exact ih

end Node

theorem takenMessages_append (h h' : List (Event Node Payload)) :
    takenMessages (h ++ h') = takenMessages h ++ takenMessages h' :=
  List.filterMap_append

theorem takenMessages_returns {n : Node} (o : Option (List (Message Node Payload))) :
    takenMessages (returns n o) = [] := by
  cases o <;> rfl

section Step
variable (h : s.Unnumbered) {n : Node}
include h

variable [DecidableEq Node]

theorem Service.Unnumbered.move {y : QueueNode Node Payload} {r : Redis Node Payload}
    {evs : List (Event Node Payload)} (hy : y.Unnumbered)
    (hqueue : ∀ home, ∀ m ∈ r.queue home, m ∈ s.redis.queue home ∨ m.offset = 0)
    (htaken : ∀ m ∈ takenMessages evs, m.offset = 0) : (s.move n y r evs).Unnumbered := by
  constructor
  case nodes =>
    intro m
    by_cases hm : m = n
    · subst hm
      rwa [move_self]
    · rw [move_of_ne _ _ _ _ hm]
      exact h.nodes m
  case lists =>
    intro home m hm
    cases hqueue home m hm with
    | inl hold => exact h.lists home m hold
    | inr hnew => exact hnew
  case taken =>
    intro m hm
    rw [move_history, takenMessages_append] at hm
    cases List.mem_append.mp hm with
    | inl hnew => exact htaken m hnew
    | inr hold => exact h.taken m hold

omit [DecidableEq Node] in
theorem Service.Unnumbered.of_call {k : Nat} {c : Call Node Payload}
    (hk : (s.nodes n).calls[k]? = some c) {m : Message Node Payload} (hm : m ∈ c.messages) :
    m.offset = 0 :=
  (h.nodes n).calls c (List.mem_of_getElem? hk) m hm

theorem Service.Unnumbered.step (hs : (queue cfg).step s a = some t) : t.Unnumbered := by
  have hsame (r : Redis Node Payload) (hr : r.queue = s.redis.queue) (home : TopicPartition) :
      ∀ m ∈ r.queue home, m ∈ s.redis.queue home ∨ m.offset = 0 :=
    fun m hm => .inl (hr ▸ hm)
  have hpush (pipe : List (Message Node Payload)) (hpipe : ∀ m ∈ pipe, m.offset = 0)
      (home : TopicPartition) : ∀ m ∈ (pipe.foldl Redis.rpush s.redis).queue home,
        m ∈ s.redis.queue home ∨ m.offset = 0 := by
    intro m hm
    rw [queue_foldl_rpush] at hm
    cases List.mem_append.mp hm with
    | inl hold => exact .inl hold
    | inr hnew => exact .inr (hpipe m (List.mem_of_mem_filter hnew))
  cases step_cases hs with
  | produce n topic payload key headers messageId timestamp hfresh =>
    refine h.move ?_ (hsame _ rfl) (by simp [takenMessages])
    unfold QueueNode.produce
    split
    · exact h.nodes n
    · exact (h.nodes n).suspend (by simp [Call.messages, Config.message])
  | produceBatch n topic items hnodup hfresh =>
    refine h.move ((h.nodes n).suspend fun m hm => ?_) (hsame _ rfl) (by simp [takenMessages])
    have hbatch := (pipeline_perm _).subset hm
    obtain ⟨i, hi, rfl⟩ := List.mem_mapIdx.mp hbatch
    rfl
  | consume n topic groupId consumerId partitions batchSize =>
    have hjoin : ((s.nodes n).joinGroup groupId topic consumerId).Unnumbered :=
      ⟨(h.nodes n).inFlight, (h.nodes n).calls⟩
    exact h.move (hjoin.poll _ _ _ _) (hsame _ rfl) (by simp [takenMessages_returns])
  | acknowledge n messageId msg hm =>
    refine h.move (((h.nodes n).untrack messageId).suspend ?_) (hsame _ rfl)
      (by simp [takenMessages])
    simpa [Call.messages] using (h.nodes n).offset_eq hm
  | acknowledgeUnknown n messageId => exact h
  | negativeAcknowledge n messageId y hy =>
    exact h.move ((h.nodes n).negativeAcknowledge hy) (hsame _ rfl) (by simp [takenMessages])
  | negativeAcknowledgeUnknown n messageId => exact h
  | checkTimeouts n now =>
    exact h.move ((h.nodes n).checkTimedOut _) (hsame _ rfl) (by simp [takenMessages])
  | rpush n k msg hk =>
    have hmsg : ∀ m ∈ [msg], m.offset = 0 := fun m hm => h.of_call hk hm
    exact h.move (((h.nodes n).wake k).suspend hmsg) (hpush [msg] hmsg)
      (by simp [takenMessages])
  | incr n k msg hk =>
    exact h.move ((h.nodes n).wake k) (hsame _ rfl) (by simp [takenMessages])
  | execute n k pipe hk =>
    exact h.move ((h.nodes n).wake k) (hpush pipe fun m hm => h.of_call hk hm)
      (by simp [takenMessages])
  | lpopEmpty n k topic p rest batchSize messages hk =>
    exact h.move (((h.nodes n).wake k).poll _ _ _ _) (hsame _ rfl)
      (by simp [takenMessages_returns])
  | lpop n k topic p rest batchSize messages raw hk hq r hr =>
    have hraw : raw.offset = 0 := by
      refine h.lists (topic, p) raw ?_
      rw [hq]
      exact List.mem_cons_self
    have htracked : (((s.nodes n).wake k).track { raw with partition := p }).Unnumbered :=
      ((h.nodes n).wake k).track hraw
    subst hr
    refine h.move (htracked.poll _ _ _ _) (fun home m hm => ?_) ?_
    · rw [queue_pop] at hm
      split at hm
      · exact .inl (List.mem_of_mem_tail hm)
      · exact .inl hm
    · rw [takenMessages_append, takenMessages_returns]
      simpa [takenMessages] using hraw
  | set n k msg hk =>
    exact h.move ((h.nodes n).wake k) (hsame _ rfl) (by simp [takenMessages])
  | bury n k msg timedOut hk hmax =>
    exact h.move (((h.nodes n).wake k).checkTimedOut _) (hsame _ rfl) (by simp [takenMessages])
  | requeue n k msg timedOut hk hmax =>
    have hmsg : msg.offset = 0 := h.of_call hk List.mem_cons_self
    refine h.move (((h.nodes n).wake k).checkTimedOut _) (fun home m hm => ?_)
      (by simp [takenMessages])
    rw [queue_lpush] at hm
    cases List.mem_append.mp hm with
    | inl hnew =>
      split at hnew
      · exact .inr (List.mem_singleton.mp hnew ▸ hmsg)
      · cases hnew
    | inr hold => exact .inl hold

end Step

variable [DecidableEq Node]

theorem unnumbered_reach (h : (queue cfg).Reachable s) : s.Unnumbered :=
  h.invariant (I := Service.Unnumbered)
    ⟨fun _ => ⟨fun _ he => absurd he List.not_mem_nil, fun _ hc => absurd hc List.not_mem_nil⟩,
      fun _ _ hm => absurd hm List.not_mem_nil, fun _ hm => absurd hm List.not_mem_nil⟩
    fun _ _ _ _ hi _ hs => hi.step hs

omit [DecidableEq Node] in
theorem countedOffsets_append (h h' : List (Event Node Payload)) :
    countedOffsets (h ++ h') = countedOffsets h ++ countedOffsets h' :=
  List.filterMap_append

omit [DecidableEq Node] in
theorem countedOffsets_returns {n : Node} (o : Option (List (Message Node Payload))) :
    countedOffsets (returns n o) = [] := by
  cases o <;> rfl

theorem countedOffsets_pos (h : (queue cfg).Reachable s) :
    ∀ e ∈ countedOffsets s.history, 0 < e.2 := by
  refine h.invariant (I := fun s => ∀ e ∈ countedOffsets s.history, 0 < e.2)
    (fun _ he => absurd he List.not_mem_nil) fun s a t _ hi _ hs => ?_
  have hmove {n : Node} {y : QueueNode Node Payload} {r : Redis Node Payload}
      {evs : List (Event Node Payload)} (hevs : ∀ e ∈ countedOffsets evs, 0 < e.2) :
      ∀ e ∈ countedOffsets (s.move n y r evs).history, 0 < e.2 := by
    intro e he
    rw [move_history, countedOffsets_append] at he
    cases List.mem_append.mp he with
    | inl hnew => exact hevs e hnew
    | inr hold => exact hi e hold
  cases step_cases hs with
  | incr n k msg hk => exact hmove (by simp [countedOffsets])
  | consume n topic groupId consumerId partitions batchSize =>
    exact hmove (by simp [countedOffsets_returns])
  | lpopEmpty n k topic p rest batchSize messages hk =>
    exact hmove (by simp [countedOffsets_returns])
  | lpop n k topic p rest batchSize messages raw hk hq r hr =>
    refine hmove ?_
    rw [countedOffsets_append, countedOffsets_returns]
    exact fun _ he => absurd he List.not_mem_nil
  | acknowledgeUnknown n messageId => exact hi
  | negativeAcknowledgeUnknown n messageId => exact hi
  | _ => exact hmove (by simp [countedOffsets])

theorem committed_reach (h : (queue cfg).Reachable s) (home : TopicPartition) :
    s.redis.committed home = lastAcknowledged s.history home := by
  refine h.invariant (I := fun s => s.redis.committed home = lastAcknowledged s.history home)
    rfl fun s a t _ hi _ hs => ?_
  have hmove {n : Node} {y : QueueNode Node Payload} {r : Redis Node Payload}
      {evs : List (Event Node Payload)} (hr : r.committed = s.redis.committed)
      (hevs : acknowledgedMessages evs = []) : (s.move n y r evs).redis.committed home =
        lastAcknowledged (s.move n y r evs).history home := by
    rw [move_redis, hr, hi, lastAcknowledged, lastAcknowledged, move_history,
      acknowledgedMessages_append, hevs, List.nil_append]
  have hpush (pipe : List (Message Node Payload)) (r : Redis Node Payload) :
      (pipe.foldl Redis.rpush r).committed = r.committed := by
    induction pipe generalizing r with
    | nil => rfl
    | cons m pipe ih => exact ih (r.rpush m)
  cases step_cases hs with
  | set n k msg hk =>
    have hacked : acknowledgedMessages (s.move n ((s.nodes n).wake k) (s.redis.commit msg)
        [.acknowledged n msg]).history = msg :: acknowledgedMessages s.history := rfl
    rw [lastAcknowledged, hacked, List.find?_cons]
    by_cases hh : msg.home = home
    · subst hh
      simp [Redis.commit]
    · have hsame : (s.redis.commit msg).committed home = s.redis.committed home := by
        simp [Redis.commit, Function.update_of_ne (Ne.symm hh)]
      rw [move_redis, hsame, hi]
      simp [lastAcknowledged, hh]
  | execute n k pipe hk => exact hmove (hpush pipe s.redis) (by simp [acknowledgedMessages])
  | produceBatch n topic items hnodup hfresh => exact hmove rfl (by simp [acknowledgedMessages])
  | consume n topic groupId consumerId partitions batchSize =>
    exact hmove rfl (acknowledgedMessages_returns _)
  | lpopEmpty n k topic p rest batchSize messages hk =>
    exact hmove rfl (acknowledgedMessages_returns _)
  | lpop n k topic p rest batchSize messages raw hk hq r hr =>
    refine hmove rfl ?_
    rw [acknowledgedMessages_append, acknowledgedMessages_returns]
    rfl
  | acknowledgeUnknown n messageId => exact hi
  | negativeAcknowledgeUnknown n messageId => exact hi
  | _ => exact hmove rfl rfl

/-- Offsets identify messages exactly as long as none that `produce` pushed was consumed. -/
theorem offsetsIdentify_iff (h : (queue cfg).Reachable s) : s.OffsetsIdentify ↔
    ∀ m ∈ takenMessages s.history, m.messageId ∉ producedIds s.history := by
  constructor
  · intro hid m hm hp
    have hcounted := hid.own m hm hp
    have hpos : 0 < m.offset := countedOffsets_pos h _ hcounted
    rw [(unnumbered_reach h).taken m hm] at hpos
    exact lt_irrefl 0 hpos
  · intro hnone
    refine ⟨fun m hm hp => absurd hp (hnone m hm), fun m hm _ _ hp => absurd hp (hnone m hm),
      fun m hm _ _ _ hsub => ?_, committed_reach h⟩
    exact absurd (hsub.subset (by simp)) (hnone m hm)

/-- One message is produced and consumed. -/
def consumedOnce : List (Action Nat Nat) :=
  [.produce 0 "orders" 7 none [] "m" 0, .resume 0 0, .resume 0 0,
   .consume 1 "orders" "group" "a" (some [0]) 1, .resume 1 0]

theorem offsetsIdentify_iff_consumedOnce :
    ∃ s, (queue plain).run (queue plain).init consumedOnce = some s ∧
      (s.OffsetsIdentify ↔
        ∀ m ∈ takenMessages s.history, m.messageId ∉ producedIds s.history) := by
  have hrun : ((queue plain).run (queue plain).init consumedOnce).isSome = true := by
    decide +kernel
  obtain ⟨s, hs⟩ := Option.isSome_iff_exists.mp hrun
  exact ⟨s, hs, offsetsIdentify_iff (System.reachable_run hs)⟩

theorem not_offsetsIdentify_consumedOnce :
    ∃ s, (queue plain).run (queue plain).init consumedOnce = some s ∧ ¬ s.OffsetsIdentify := by
  have hrun : ((queue plain).run (queue plain).init consumedOnce).any (fun s =>
      countedOffsets s.history = [("m", 1)] ∧ ∃ m ∈ takenMessages s.history,
        m.messageId ∈ producedIds s.history ∧ m.offset = 0) = true := by
    decide +kernel
  obtain ⟨s, hs, hh⟩ := (Option.any_eq_true ..).mp hrun
  obtain ⟨hcounted, m, hm, hp, h0⟩ := of_decide_eq_true hh
  refine ⟨s, hs, fun hid => ?_⟩
  have hown := hid.own m hm hp
  rw [hcounted, h0] at hown
  simp at hown

end DistSync.Queue
