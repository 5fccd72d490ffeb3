import DistSync.Queue.Delivery

/-! Replies under way. What `resume` does at once happens at two moments here: Redis executes the
command of a coroutine, and later the coroutine gets the reply. Each message is in one place all
the same, if the replies are counted among the places. -/
namespace DistSync.Queue
variable {Node Payload : Type}

/-- The reply to a command, with what its coroutine needs to go on. -/
inductive Reply (Node Payload : Type) where
  | rpush (msg : Message Node Payload)
  | incr
  | execute
  | lpop (topic : String) (partition : Int) (rest : List Int) (batchSize : Nat)
      (messages : List (Message Node Payload)) (raw : Option (Message Node Payload))
  | set (msg : Message Node Payload)
  | requeue (timedOut : Option (List String))

def Reply.checking : Reply Node Payload → Bool
  | .requeue (some _) => true
  | _ => false

/-- What Redis does on the command of a call, with its reply. -/
def Redis.execute (cfg : Config Node Payload) (r : Redis Node Payload) :
    Call Node Payload → Redis Node Payload × List (Event Node Payload) × Reply Node Payload
  | .rpush msg => (r.rpush msg, [.produced msg], .rpush msg)
  | .incr msg => (r.incr msg.home, [.counted msg.messageId (r.offset msg.home + 1)], .incr)
  | .execute pipe => (pipe.foldl Redis.rpush r, pipe.reverse.map .batched, .execute)
  | .lpop topic p rest batchSize messages =>
    match r.queue (topic, p) with
    | [] => (r, [], .lpop topic p rest batchSize messages none)
    | raw :: _ => (r.pop (topic, p), [], .lpop topic p rest batchSize messages (some raw))
  | .set msg => (r.commit msg, [], .set msg)
  | .requeue msg timedOut =>
    (if msg.retryCount ≥ cfg.maxRetries then r.bury msg else r.lpush msg, [], .requeue timedOut)

/-- What a coroutine of `n` does with the reply, up to its next `await`. -/
def QueueNode.hear (x : QueueNode Node Payload) (n : Node) :
    Reply Node Payload → QueueNode Node Payload × List (Event Node Payload)
  | .rpush msg => (x.suspend (.incr msg), [])
  | .incr => (x, [])
  | .execute => (x, [])
  | .lpop topic _ rest batchSize messages none =>
    let r := x.poll topic batchSize messages rest
    (r.1, returns n r.2)
  | .lpop topic p rest batchSize messages (some raw) =>
    let msg := { raw with partition := p }
    let r := (x.track msg).poll topic batchSize (messages ++ [msg]) rest
    (r.1, returns n r.2 ++ [.taken n msg])
  | .set msg => (x, [.acknowledged n msg])
  | .requeue timedOut => (x.checkTimedOut (timedOut.getD []), [])

structure Exchange (Node Payload : Type) where
  service : Service Node Payload := {}
  replies : Node → List (Reply Node Payload) := fun _ => []

/-- An operation begins, Redis executes the command of the `k`-th suspended coroutine of `n`, or
the coroutine gets the `j`-th reply that is under way to `n`. -/
inductive Signal (Node Payload : Type) where
  | begin (a : Action Node Payload)
  | execute (n : Node) (k : Nat)
  | hear (n : Node) (j : Nat)

namespace Exchange
variable [DecidableEq Node] (cfg : Config Node Payload) (w : Exchange Node Payload)

/-- The action begins an operation, and is not the checker's while that waits for a reply. -/
def begins : Action Node Payload → Bool
  | .resume _ _ => false
  | .checkTimeouts n _ => !(w.replies n).any Reply.checking
  | _ => true

def execute (n : Node) (k : Nat) : Option (Exchange Node Payload) :=
  (w.service.nodes n).calls[k]?.map fun call =>
    let r := w.service.redis.execute cfg call
    { service := w.service.move n ((w.service.nodes n).wake k) r.1 r.2.1
      replies := Function.update w.replies n (w.replies n ++ [r.2.2]) }

def hear (n : Node) (j : Nat) : Option (Exchange Node Payload) :=
  (w.replies n)[j]?.map fun reply =>
    let r := (w.service.nodes n).hear n reply
    { service := w.service.move n r.1 w.service.redis r.2
      replies := Function.update w.replies n ((w.replies n).eraseIdx j) }

def step : Signal Node Payload → Option (Exchange Node Payload)
  | .begin a =>
    if w.begins a then (w.service.step cfg a).map fun s => { w with service := s } else none
  | .execute n k => w.execute cfg n k
  | .hear n j => w.hear n j

end Exchange

def exchange [DecidableEq Node] (cfg : Config Node Payload) :
    System (Exchange Node Payload) (Signal Node Payload) where
  init := {}
  step w a := w.step cfg a

section Signals
variable [DecidableEq Node] {cfg : Config Node Payload} {w u : Exchange Node Payload}

theorem begin_eq_some {a : Action Node Payload} (h : (exchange cfg).step w (.begin a) = some u) :
    ∃ s, w.begins a = true ∧ (queue cfg).step w.service a = some s ∧
      u = { w with service := s } := by
  simp only [exchange, Exchange.step] at h
  split at h
  · rename_i hb
    obtain ⟨s, hs, rfl⟩ := Option.map_eq_some_iff.mp h
    exact ⟨s, hb, hs, rfl⟩
  · cases h

theorem execute_eq_some {n : Node} {k : Nat}
    (h : (exchange cfg).step w (.execute n k) = some u) :
    ∃ call, (w.service.nodes n).calls[k]? = some call ∧ u =
      { service := w.service.move n ((w.service.nodes n).wake k)
          (w.service.redis.execute cfg call).1 (w.service.redis.execute cfg call).2.1
        replies := Function.update w.replies n
          (w.replies n ++ [(w.service.redis.execute cfg call).2.2]) } := by
  obtain ⟨call, hk, rfl⟩ := Option.map_eq_some_iff.mp h
  exact ⟨call, hk, rfl⟩

theorem hear_eq_some {n : Node} {j : Nat} (h : (exchange cfg).step w (.hear n j) = some u) :
    ∃ reply, (w.replies n)[j]? = some reply ∧ u =
      { service := w.service.move n ((w.service.nodes n).hear n reply).1 w.service.redis
          ((w.service.nodes n).hear n reply).2
        replies := Function.update w.replies n ((w.replies n).eraseIdx j) } := by
  obtain ⟨reply, hj, rfl⟩ := Option.map_eq_some_iff.mp h
  exact ⟨reply, hj, rfl⟩

end Signals

section Resume
variable [DecidableEq Node] {cfg : Config Node Payload} {s t : Service Node Payload}

/-- `resume` is the command and the reply at once. -/
theorem resume_eq (n : Node) (k : Nat) :
    s.resume cfg n k = (s.nodes n).calls[k]?.map fun call =>
      let r := s.redis.execute cfg call
      let y := ((s.nodes n).wake k).hear n r.2.2
      s.move n y.1 r.1 (y.2 ++ r.2.1) := by
  unfold Service.resume
  refine congrArg (fun f => (s.nodes n).calls[k]?.map f) (funext fun call => ?_)
  cases call with
  | lpop topic p rest batchSize messages =>
    simp only [Redis.execute]
    cases s.redis.queue (topic, p) with
    | nil => simp only [QueueNode.hear, List.append_nil]
    | cons raw tail => simp only [QueueNode.hear, List.append_nil]
  | _ => simp only [Redis.execute, QueueNode.hear, List.nil_append, List.append_nil]

/-- A step of the nodes with immediate replies is one or two steps here. -/
theorem run_of_step {a : Action Node Payload} (hs : (queue cfg).step s a = some t) :
    ∃ as, (exchange cfg).run { service := s } as = some { service := t } := by
  have hbegin (hb : ({ service := s } : Exchange Node Payload).begins a = true) :
      ∃ as, (exchange cfg).run { service := s } as = some { service := t } := by
    have hs : s.step cfg a = some t := hs
    exact ⟨[.begin a], by simp [System.run, exchange, Exchange.step, hb, hs]⟩
  cases a with
  | resume n k =>
    have hs : s.resume cfg n k = some t := hs
    rw [resume_eq] at hs
    obtain ⟨call, hk, rfl⟩ := Option.map_eq_some_iff.mp hs
    refine ⟨[.execute n k, .hear n 0], ?_⟩
    simp [System.run, exchange, Exchange.step, Exchange.execute, Exchange.hear, hk, move_move]
  | _ => exact hbegin rfl

theorem Reachable.exchange (h : (queue cfg).Reachable s) :
    (exchange cfg).Reachable { service := s } := by
  refine h.invariant (I := fun s => (Queue.exchange cfg).Reachable { service := s }) .init
    fun s a t _ ih _ hs => ?_
  obtain ⟨as, hr⟩ := run_of_step hs
  exact ih.run (System.along_trivial _ _) hr

end Resume

section Behind
variable (x : QueueNode Node Payload) (cs : List (Call Node Payload))

def QueueNode.behind : QueueNode Node Payload := { x with calls := cs ++ x.calls }

theorem shelf_behind (sh : Shelf) :
    ((x.behind cs).shelf sh).Perm (cs.flatMap (fun c => c.shelf sh) ++ x.shelf sh) := by
  simp only [QueueNode.shelf, QueueNode.behind, List.flatMap_append, ← List.append_assoc]
  exact List.perm_append_comm.append_right _

theorem shelf_behind_append (cs' : List (Call Node Payload)) (sh : Shelf) :
    ((x.behind (cs ++ cs')).shelf sh).Perm
      (cs'.flatMap (fun c => c.shelf sh) ++ (x.behind cs).shelf sh) := by
  refine (shelf_behind x (cs ++ cs') sh).trans ?_
  rw [List.flatMap_append]
  refine (List.perm_append_comm.append_right _).trans ?_
  rw [List.append_assoc]
  exact (shelf_behind x cs sh).symm.append_left _

theorem behind_suspend (c : Call Node Payload) :
    (x.behind cs).suspend c = (x.suspend c).behind cs := by
  simp only [QueueNode.suspend, QueueNode.behind, List.append_assoc]

theorem behind_wake (k : Nat) : (x.behind cs).wake (cs.length + k) = (x.wake k).behind cs := by
  simp [QueueNode.wake, QueueNode.behind, List.eraseIdx_append_of_length_le]

theorem behind_getElem? (k : Nat) : (x.behind cs).calls[cs.length + k]? = x.calls[k]? := by
  rw [QueueNode.behind, List.getElem?_append_right (Nat.le_add_right ..), Nat.add_sub_cancel_left]

theorem behind_poll (topic : String) (batchSize : Nat) (messages : List (Message Node Payload))
    (partitions : List Int) : (x.behind cs).poll topic batchSize messages partitions =
      ((x.poll topic batchSize messages partitions).1.behind cs,
        (x.poll topic batchSize messages partitions).2) := by
  cases partitions with
  | nil => rfl
  | cons p rest =>
    simp only [QueueNode.poll]
    split
    · rfl
    · rw [behind_suspend]

theorem behind_negativeAcknowledge (messageId : String) (timedOut : Option (List String)) :
    (x.behind cs).negativeAcknowledge messageId timedOut =
      (x.negativeAcknowledge messageId timedOut).map fun y => y.behind cs := by
  simp only [QueueNode.negativeAcknowledge, Option.map_map]
  refine congrArg (fun f => (x.inFlight.get? messageId).map f) (funext fun msg => ?_)
  exact behind_suspend (x.untrack messageId) cs _

theorem behind_checkTimedOut (timedOut : List String) :
    (x.behind cs).checkTimedOut timedOut = (x.checkTimedOut timedOut).behind cs := by
  induction timedOut with
  | nil => rfl
  | cons messageId timedOut ih =>
    simp only [QueueNode.checkTimedOut, behind_negativeAcknowledge]
    cases x.negativeAcknowledge messageId (some timedOut) with
    | none => exact ih
    | some y => rfl

theorem behind_acknowledge (messageId : String) :
    (x.behind cs).acknowledge messageId =
      (x.acknowledge messageId).map fun r => (r.1, r.2.behind cs) := by
  simp only [QueueNode.acknowledge, Option.map_map]
  refine congrArg (fun f => (x.inFlight.get? messageId).map f) (funext fun msg => ?_)
  exact congrArg (Prod.mk msg) (behind_suspend (x.untrack messageId) cs _)

theorem behind_produce (cfg : Config Node Payload) (msg : Message Node Payload) :
    (x.behind cs).produce cfg msg = (x.produce cfg msg).behind cs := by
  unfold QueueNode.produce
  split
  · rfl
  · exact behind_suspend x cs _

theorem behind_consume (cfg : Config Node Payload) (topic groupId consumerId : String)
    (partitions : Option (List Int)) (batchSize : Nat) :
    (x.behind cs).consume cfg topic groupId consumerId partitions batchSize =
      ((x.consume cfg topic groupId consumerId partitions batchSize).1.behind cs,
        (x.consume cfg topic groupId consumerId partitions batchSize).2) :=
  behind_poll (x.joinGroup groupId topic consumerId) cs _ _ _ _

end Behind

/-- For the books, a popped message under way is one that its node carries, and one whose `set`
is executed is one that has yet to be committed. -/
def Reply.standIn : Reply Node Payload → Option (Call Node Payload)
  | .lpop _ _ _ _ _ (some raw) => some (.requeue raw none)
  | .set msg => some (.set msg)
  | _ => none

def standIns (replies : List (Reply Node Payload)) : List (Call Node Payload) :=
  replies.filterMap Reply.standIn

theorem standIns_append (replies : List (Reply Node Payload)) (reply : Reply Node Payload) :
    standIns (replies ++ [reply]) = standIns replies ++ reply.standIn.toList := by
  rw [standIns, List.filterMap_append]
  cases h : reply.standIn <;> simp [h, standIns]

theorem standIns_perm {replies : List (Reply Node Payload)} {reply : Reply Node Payload} {j : Nat}
    (hj : replies[j]? = some reply) :
    (standIns replies).Perm (reply.standIn.toList ++ standIns (replies.eraseIdx j)) := by
  obtain ⟨hlt, rfl⟩ := List.getElem?_eq_some_iff.mp hj
  refine ((List.getElem_cons_eraseIdx_perm hlt).symm.filterMap _).trans ?_
  cases h : (replies[j]).standIn <;> simp [h, standIns]

/-- The service with the replies among the calls. -/
def Exchange.ledger (w : Exchange Node Payload) : Service Node Payload :=
  { w.service with nodes := fun n => (w.service.nodes n).behind (standIns (w.replies n)) }

/-- A popped message under way is from the partition that was asked. -/
def Exchange.Addressed (w : Exchange Node Payload) : Prop :=
  ∀ n topic p rest batchSize messages raw,
    .lpop topic p rest batchSize messages (some raw) ∈ w.replies n → raw.home = (topic, p)

section Ledger
variable [DecidableEq Node] {cfg : Config Node Payload} {w u : Exchange Node Payload}

theorem ledger_move (n : Node) (y : QueueNode Node Payload) (r : Redis Node Payload)
    (evs : List (Event Node Payload)) (replies : List (Reply Node Payload)) :
    Exchange.ledger
      { service := w.service.move n y r evs, replies := Function.update w.replies n replies } =
        w.ledger.move n (y.behind (standIns replies)) r evs := by
  simp only [Exchange.ledger, Service.move]
  congr 1
  funext m
  by_cases hm : m = n
  · subst hm
    simp only [Function.update_self]
  · simp only [Function.update_of_ne hm]

theorem ledger_act (n : Node) (y : QueueNode Node Payload) (r : Redis Node Payload)
    (evs : List (Event Node Payload)) :
    Exchange.ledger { w with service := w.service.move n y r evs } =
      w.ledger.move n (y.behind (standIns (w.replies n))) r evs := by
  have h := ledger_move (w := w) n y r evs (w.replies n)
  rwa [Function.update_eq_self] at h

theorem ledger_acknowledge (n : Node) (messageId : String) :
    w.ledger.acknowledge n messageId =
      Exchange.ledger { w with service := w.service.acknowledge n messageId } := by
  have hledger : (w.ledger.nodes n).acknowledge messageId = _ :=
    behind_acknowledge (w.service.nodes n) (standIns (w.replies n)) messageId
  simp only [Service.acknowledge, hledger]
  cases (w.service.nodes n).acknowledge messageId with
  | none => rfl
  | some r => exact (ledger_act ..).symm

theorem ledger_negativeAcknowledge (n : Node) (messageId : String) :
    w.ledger.negativeAcknowledge n messageId =
      Exchange.ledger { w with service := w.service.negativeAcknowledge n messageId } := by
  have hledger : (w.ledger.nodes n).negativeAcknowledge messageId none = _ :=
    behind_negativeAcknowledge (w.service.nodes n) (standIns (w.replies n)) messageId none
  simp only [Service.negativeAcknowledge, hledger]
  cases (w.service.nodes n).negativeAcknowledge messageId none with
  | none => rfl
  | some y => exact (ledger_act ..).symm

omit [DecidableEq Node] in
theorem checking_standIns (replies : List (Reply Node Payload)) :
    (standIns replies).any Call.checking = false := by
  refine List.any_eq_false.mpr fun c hc => ?_
  obtain ⟨reply, -, hreply⟩ := List.mem_filterMap.mp hc
  cases reply with
  | lpop topic p rest batchSize messages raw =>
    cases raw with
    | none => cases hreply
    | some raw =>
      cases hreply
      simp [Call.checking]
  | set msg =>
    cases hreply
    simp [Call.checking]
  | _ => cases hreply

/-- The beginning of an operation is a step of the ledger. -/
theorem ledger_begin {a : Action Node Payload} (hb : w.begins a = true) {s : Service Node Payload}
    (hs : (queue cfg).step w.service a = some s) :
    (queue cfg).step w.ledger a = some (Exchange.ledger { w with service := s }) := by
  cases a with
  | produce n topic payload key headers messageId timestamp =>
    cases step_cases hs with
    | produce _ _ _ _ _ _ _ hfresh =>
      rw [ledger_act, ← behind_produce]
      exact if_neg hfresh
  | produceBatch n topic items =>
    cases step_cases hs with
    | produceBatch _ _ _ hnodup hfresh =>
      rw [ledger_act, QueueNode.produceBatch, ← behind_suspend]
      exact if_pos ⟨hnodup, hfresh⟩
  | consume n topic groupId consumerId partitions batchSize =>
    cases hs
    have hledger :
        (w.ledger.nodes n).consume cfg topic groupId consumerId partitions batchSize = _ :=
      behind_consume (w.service.nodes n) (standIns (w.replies n)) cfg topic groupId consumerId
        partitions batchSize
    rw [Service.consume, ledger_act]
    simp only [queue, Service.step, Service.consume, hledger]
    rfl
  | acknowledge n messageId =>
    cases hs
    exact congrArg some (ledger_acknowledge n messageId)
  | negativeAcknowledge n messageId =>
    cases hs
    exact congrArg some (ledger_negativeAcknowledge n messageId)
  | checkTimeouts n now =>
    simp only [queue, Service.step, Service.checkTimeouts] at hs
    split at hs
    · cases hs
    · rename_i hidle
      cases hs
      rw [ledger_act, ← behind_checkTimedOut]
      refine if_neg ?_
      have hcalls : (w.ledger.nodes n).calls =
          standIns (w.replies n) ++ (w.service.nodes n).calls := rfl
      rw [hcalls, List.any_append, checking_standIns, Bool.false_or]
      exact hidle
  | resume n k => cases hb

/-- A popped message comes in flight, and its `consume` goes on. -/
theorem Kept.hearPopped {s : Service Node Payload} {place : String → Option (Spot Node)}
    (h : Kept s place) {n : Node} {x : QueueNode Node Payload} {cs : List (Call Node Payload)}
    {topic : String} {p : Int} {raw : Message Node Payload} (hkeyed : x.Keyed)
    (hsame : (s.nodes n).inFlight = x.inFlight) (hhome : raw.home = (topic, p))
    (hshelf : ∀ sh, ((s.nodes n).shelf sh).Perm
      ((Call.requeue raw none).shelf sh ++ (x.behind cs).shelf sh))
    (rest : List Int) (batchSize : Nat) (messages : List (Message Node Payload)) :
    let r := x.hear n (.lpop topic p rest batchSize messages (some raw))
    ∃ place, Kept (s.move n (r.1.behind cs) s.redis r.2) place := by
  have hraw : raw ∈ s.box (.node n .carried) :=
    (hshelf .carried).symm.subset (List.mem_append_left _ List.mem_cons_self)
  have hfree : x.inFlight.get? raw.messageId = none := hsame ▸ h.free_of_mem hraw nofun
  have hfree' : (x.behind cs).inFlight.get?
      ({ raw with partition := p } : Message Node Payload).messageId = none := hfree
  have hkeyed' : (x.track { raw with partition := p }).Keyed := hkeyed.track hfree
  refine h.pass .carried .inFlight raw { raw with partition := p } (by decide) (by decide)
    (by decide) rfl (by rw [hhome, Message.home, (Prod.mk.inj hhome).1])
    (fun sh => ⟨(x.behind cs).shelf sh, (hshelf sh).trans (by cases sh <;> exact .refl _), ?_⟩)
    (hkeyed'.poll topic batchSize _ rest) ?_ ?_ ?_
  · have hpoll := shelf_poll ((x.behind cs).track { raw with partition := p }) topic batchSize
      (messages ++ [{ raw with partition := p }]) rest sh
    refine (List.Perm.of_eq ?_).trans (hpoll.trans (shelf_track _ hfree' sh))
    exact congrArg (fun r : QueueNode Node Payload × _ => r.1.shelf sh)
      (behind_poll (x.track { raw with partition := p }) cs _ _ _ _).symm
  · simp only [QueueNode.hear, pushes_append, pushes_returns]
    rfl
  · simp only [QueueNode.hear, acknowledgedMessages_append, acknowledgedMessages_returns]
    rfl
  · intro n' msg hm
    cases List.mem_append.mp hm with
    | inl hm => exact absurd hm (acknowledging_not_mem_returns _ n' msg)
    | inr hm => simp at hm

section Signals
variable {place : String → Option (Spot Node)} (h : Kept w.ledger place) {n : Node}
include h

theorem Kept.execute {k : Nat} (hs : (exchange cfg).step w (.execute n k) = some u) :
    ∃ place, Kept u.ledger place := by
  obtain ⟨call, hk, rfl⟩ := execute_eq_some hs
  rw [ledger_move, standIns_append]
  generalize hcs : standIns (w.replies n) = cs
  have hnode : w.ledger.nodes n = (w.service.nodes n).behind cs := by
    rw [← hcs]
    rfl
  have hk' : (w.ledger.nodes n).calls[cs.length + k]? = some call := by
    rw [hnode, behind_getElem?, hk]
  have hkeyed : (w.service.nodes n).Keyed := h.keyed n
  have hshelf (reply : Reply Node Payload) (sh : Shelf) :
      ((((w.service.nodes n).wake k).behind (cs ++ reply.standIn.toList)).shelf sh).Perm
        (reply.standIn.toList.flatMap (fun c => c.shelf sh) ++
          ((w.ledger.nodes n).wake (cs.length + k)).shelf sh) := by
    rw [hnode, behind_wake]
    exact shelf_behind_append _ _ _ sh
  cases call with
  | rpush msg =>
    exact h.push [msg] hk' rfl (fun sh hsh => by cases sh <;> first | rfl | exact absurd rfl hsh)
      (hshelf (.rpush msg)) hkeyed (.refl _) rfl (by simp [Redis.execute])
  | incr msg =>
    exact h.idle (fun sh => (hshelf .incr sh).trans
      (shelf_wake_idle hk' (fun sh => by cases sh <;> rfl) sh)) hkeyed rfl rfl rfl rfl
      (by simp [Redis.execute])
  | execute pipe =>
    refine h.push pipe hk' rfl (fun sh hsh => by cases sh <;> first | rfl | exact absurd rfl hsh)
      (hshelf .execute) hkeyed ?_ ?_ (by simp [Redis.execute])
    · have hbatched : pushes (pipe.reverse.map Event.batched) = pipe.reverse := by
        simp [pushes]
      exact hbatched ▸ pipe.reverse_perm
    · simp [Redis.execute, acknowledgedMessages]
  | lpop topic p rest batchSize messages =>
    have hidle := shelf_wake_idle hk' (fun sh => by cases sh <;> rfl)
    simp only [Redis.execute]
    cases hq : w.service.redis.queue (topic, p) with
    | nil =>
      exact h.idle (fun sh => (hshelf (.lpop topic p rest batchSize messages none) sh).trans
        (hidle sh)) hkeyed rfl rfl rfl rfl (by simp)
    | cons raw tail =>
      have hq : w.ledger.redis.queue (topic, p) =
          raw :: (w.ledger.redis.queue (topic, p)).tail := by
        have hq : w.ledger.redis.queue (topic, p) = raw :: tail := hq
        rw [hq, List.tail_cons]
      refine h.take .carried (by decide) hq (Eq.refl raw.messageId) rfl (fun sh => ?_) hkeyed rfl rfl
        (by simp)
      · refine (hshelf (.lpop topic p rest batchSize messages (some raw)) sh).trans ?_
        refine ((hidle sh).append_left _).trans (List.Perm.append_right _ ?_)
        cases sh <;> exact .refl _
  | set msg =>
    exact h.idle (fun sh => (hshelf (.set msg) sh).trans
      (by simpa [Reply.standIn] using (shelf_wake _ hk' sh).symm)) hkeyed rfl rfl rfl rfl
      (by simp [Redis.execute])
  | requeue msg timedOut =>
    simp only [Redis.execute]
    have hnil : (Reply.requeue timedOut : Reply Node Payload).standIn.toList = [] := rfl
    rw [hnil, List.append_nil, ← behind_wake, ← hnode]
    split
    · exact h.pushAgain (.dead msg.home) hk' rfl (Redis.gains_bury _ msg)
    · exact h.pushAgain (.queue msg.home) hk' rfl (Redis.gains_lpush _ msg)

theorem Kept.hear {j : Nat} (hs : (exchange cfg).step w (.hear n j) = some u)
    (haddr : w.Addressed) : ∃ place, Kept u.ledger place := by
  obtain ⟨reply, hj, rfl⟩ := hear_eq_some hs
  rw [ledger_move]
  have hperm := standIns_perm hj
  generalize hcs : standIns ((w.replies n).eraseIdx j) = cs at hperm ⊢
  generalize hx : w.service.nodes n = x
  have hkeyed : x.Keyed := hx ▸ h.keyed n
  have hshelf (sh : Shelf) : ((w.ledger.nodes n).shelf sh).Perm
      (reply.standIn.toList.flatMap (fun c => c.shelf sh) ++ (x.behind cs).shelf sh) := by
    have hall := shelf_behind x (standIns (w.replies n)) sh
    rw [← hx] at hall ⊢
    refine hall.trans (((hperm.flatMap_right _).append_right _).trans ?_)
    rw [List.flatMap_append, List.append_assoc]
    exact (shelf_behind _ cs sh).symm.append_left _
  cases reply with
  | rpush msg =>
    refine h.idle (fun sh => ?_) hkeyed rfl rfl rfl rfl (by simp [QueueNode.hear])
    rw [QueueNode.hear, ← behind_suspend]
    have hidle := (hshelf sh).symm
    exact (shelf_suspend _ _ sh).trans (by cases sh <;> exact hidle)
  | incr =>
    exact h.idle (fun sh => (hshelf sh).symm) hkeyed rfl rfl rfl rfl (by simp [QueueNode.hear])
  | execute =>
    exact h.idle (fun sh => (hshelf sh).symm) hkeyed rfl rfl rfl rfl (by simp [QueueNode.hear])
  | lpop topic p rest batchSize messages raw =>
    cases raw with
    | none =>
      refine h.idle (fun sh => ?_) (hkeyed.poll _ _ _ _) rfl rfl (pushes_returns _)
        (acknowledgedMessages_returns _) (acknowledging_not_mem_returns _)
      have hpoll := shelf_poll (x.behind cs) topic batchSize messages rest sh
      rw [behind_poll] at hpoll
      exact hpoll.trans (hshelf sh).symm
    | some raw =>
      have hhome : raw.home = (topic, p) := haddr n topic p rest batchSize messages raw
        (List.mem_of_getElem? hj)
      have hsame : (w.ledger.nodes n).inFlight = x.inFlight := by
        rw [← hx]
        rfl
      refine h.hearPopped hkeyed hsame hhome (fun sh => ?_) rest batchSize messages
      simpa [Reply.standIn] using hshelf sh
  | set msg =>
    refine h.leave .committing .done msg (by decide) (by simp) (by simp [Spot.home?])
      (fun _ => rfl) (fun sh => ?_) (Redis.gains_done _ msg) rfl hkeyed rfl
      (by simp [QueueNode.hear])
    refine (hshelf sh).trans (List.Perm.append_right _ ?_)
    cases sh <;> exact .refl _
  | requeue timedOut =>
    obtain ⟨place', h'⟩ := h.idle (y := x.behind cs) (fun sh => (hshelf sh).symm) hkeyed rfl rfl rfl
      rfl (by simp : ∀ m msg, Event.acknowledging m msg ∉ ([] : List (Event Node Payload)))
    have hchecked := h'.checkTimedOut (n := n) (timedOut.getD [])
    rwa [move_self, move_move, move_redis, List.append_nil, behind_checkTimedOut] at hchecked

end Signals

theorem Kept.signal {place : String → Option (Spot Node)} (h : Kept w.ledger place)
    (haddr : w.Addressed) {a : Signal Node Payload} (hs : (exchange cfg).step w a = some u) :
    ∃ place, Kept u.ledger place := by
  cases a with
  | begin a =>
    obtain ⟨s, hb, ht, rfl⟩ := begin_eq_some hs
    exact h.step (ledger_begin hb ht)
  | execute n k => exact h.execute hs
  | hear n j => exact h.hear hs haddr

theorem mem_replies_signal {a : Signal Node Payload} (hs : (exchange cfg).step w a = some u)
    {n : Node} {reply : Reply Node Payload} (hm : reply ∈ u.replies n) :
    reply ∈ w.replies n ∨
      ∃ call ∈ (w.service.nodes n).calls, reply = (w.service.redis.execute cfg call).2.2 := by
  cases a with
  | begin a =>
    obtain ⟨s, -, -, rfl⟩ := begin_eq_some hs
    exact .inl hm
  | execute n' k =>
    obtain ⟨call, hk, rfl⟩ := execute_eq_some hs
    dsimp only at hm
    by_cases hn : n = n'
    · subst hn
      rw [Function.update_self] at hm
      refine (List.mem_append.mp hm).imp_right fun hnew => ?_
      exact ⟨call, List.mem_of_getElem? hk, List.mem_singleton.mp hnew⟩
    · rw [Function.update_of_ne hn] at hm
      exact .inl hm
  | hear n' j =>
    obtain ⟨reply', -, rfl⟩ := hear_eq_some hs
    dsimp only at hm
    by_cases hn : n = n'
    · subst hn
      rw [Function.update_self] at hm
      exact .inl (List.mem_of_mem_eraseIdx hm)
    · rw [Function.update_of_ne hn] at hm
      exact .inl hm

theorem Exchange.Addressed.signal {place : String → Option (Spot Node)} (h : w.Addressed)
    (hk : Kept w.ledger place) {a : Signal Node Payload}
    (hs : (exchange cfg).step w a = some u) : u.Addressed := by
  intro n topic p rest batchSize messages raw hm
  cases mem_replies_signal hs hm with
  | inl hold => exact h n topic p rest batchSize messages raw hold
  | inr hnew =>
    obtain ⟨call, -, hreply⟩ := hnew
    cases call with
    | lpop topic' p' rest' batchSize' messages' =>
      simp only [Redis.execute] at hreply
      cases hq : w.service.redis.queue (topic', p') with
      | nil =>
        rw [hq] at hreply
        cases hreply
      | cons raw' tail =>
        rw [hq] at hreply
        cases hreply
        have hmem : raw ∈ w.ledger.box (.queue (topic, p)) := by
          have hbox : w.ledger.box (.queue (topic, p)) = raw :: tail := hq
          rw [hbox]
          exact List.mem_cons_self
        exact hk.filed (.queue (topic, p)) _ rfl raw hmem
    | _ => cases hreply

theorem kept_exchange (h : (exchange cfg).Reachable w) : ∃ place, Kept w.ledger place := by
  have hinit : Kept (queue cfg).init fun _ => none := Kept.init
  have hboth : (∃ place, Kept w.ledger place) ∧ w.Addressed := by
    refine h.invariant (I := fun w => (∃ place, Kept w.ledger place) ∧ w.Addressed)
      ⟨⟨_, hinit⟩, nofun⟩ fun w a u _ hi _ hs => ?_
    obtain ⟨⟨place, hk⟩, haddr⟩ := hi
    exact ⟨hk.signal haddr hs, haddr.signal hk hs⟩
  exact hboth.1

end Ledger

end DistSync.Queue
