import DistSync.Queue.Service

/-! Inversion of the queue's steps, said once: which guards an enabled action had and what
nodes, lists and events it leaves behind. -/
namespace DistSync.Queue
variable {Node Payload : Type}

section Move
variable (s : Service Node Payload) (n : Node) (y : QueueNode Node Payload)
  (r : Redis Node Payload) (evs : List (Event Node Payload)) [DecidableEq Node]

@[simp] theorem move_redis : (s.move n y r evs).redis = r := rfl

@[simp] theorem move_history : (s.move n y r evs).history = evs ++ s.history := rfl

@[simp] theorem move_self : (s.move n y r evs).nodes n = y := Function.update_self ..

variable {n} in
theorem move_of_ne {m : Node} (h : m ≠ n) : (s.move n y r evs).nodes m = s.nodes m :=
  Function.update_of_ne h ..

end Move

section Lists
variable (r : Redis Node Payload) (m : Message Node Payload) (home tp : TopicPartition)

theorem queue_rpush :
    (r.rpush m).queue home = r.queue home ++ if m.home = home then [m] else [] := by
  by_cases h : m.home = home
  · subst h
    simp [Redis.rpush]
  · simp [Redis.rpush, Function.update_of_ne (Ne.symm h), h]

theorem queue_lpush :
    (r.lpush m).queue home = (if m.home = home then [m] else []) ++ r.queue home := by
  by_cases h : m.home = home
  · subst h
    simp [Redis.lpush]
  · simp [Redis.lpush, Function.update_of_ne (Ne.symm h), h]

theorem dlq_bury : (r.bury m).dlq home = r.dlq home ++ if m.home = home then [m] else [] := by
  by_cases h : m.home = home
  · subst h
    simp [Redis.bury]
  · simp [Redis.bury, Function.update_of_ne (Ne.symm h), h]

theorem queue_pop :
    (r.pop tp).queue home = if home = tp then (r.queue home).tail else r.queue home := by
  by_cases h : home = tp
  · subst h
    simp [Redis.pop]
  · simp [Redis.pop, h]

theorem queue_foldl_rpush (ms : List (Message Node Payload)) :
    (ms.foldl Redis.rpush r).queue home = r.queue home ++ ms.filter fun m => m.home = home := by
  induction ms generalizing r with
  | nil => simp
  | cons m ms ih =>
    rw [List.foldl_cons, ih, queue_rpush]
    by_cases hm : m.home = home <;> simp [hm]

theorem dlq_foldl_rpush (ms : List (Message Node Payload)) :
    (ms.foldl Redis.rpush r).dlq = r.dlq := by
  induction ms generalizing r with
  | nil => rfl
  | cons m ms ih => exact ih (r.rpush m)

end Lists

variable [DecidableEq Node]

inductive Transition (cfg : Config Node Payload) (s : Service Node Payload) :
    Action Node Payload → Service Node Payload → Prop
  | produce (n : Node) (topic : String) (payload : Payload) (key : Option String)
      (headers : List (String × String)) (messageId : String) (timestamp : Rat)
      (hfresh : messageId ∉ createdIds s.history) :
    Transition cfg s (.produce n topic payload key headers messageId timestamp)
      (s.move n ((s.nodes n).produce cfg
        (cfg.message n topic payload key headers messageId timestamp)) s.redis
        [.created messageId])
  | produceBatch (n : Node) (topic : String) (items : List (BatchItem Payload))
      (hnodup : ((cfg.batch n topic items).map Message.messageId).Nodup)
      (hfresh : ∀ m ∈ cfg.batch n topic items, m.messageId ∉ createdIds s.history) :
    Transition cfg s (.produceBatch n topic items)
      (s.move n ((s.nodes n).produceBatch (cfg.batch n topic items)) s.redis
        ((cfg.batch n topic items).map fun m => .created m.messageId))
  | consume (n : Node) (topic groupId consumerId : String) (partitions : Option (List Int))
      (batchSize : Nat) :
    Transition cfg s (.consume n topic groupId consumerId partitions batchSize)
      (s.consume cfg n topic groupId consumerId partitions batchSize)
  | acknowledge (n : Node) (messageId : String) (msg : Message Node Payload)
      (hm : (s.nodes n).inFlight.get? messageId = some msg) :
    Transition cfg s (.acknowledge n messageId)
      (s.move n (((s.nodes n).untrack messageId).suspend (.set msg)) s.redis
        [.acknowledging n msg])
  | acknowledgeUnknown (n : Node) (messageId : String) :
    Transition cfg s (.acknowledge n messageId) s
  | negativeAcknowledge (n : Node) (messageId : String) (y : QueueNode Node Payload)
      (hy : (s.nodes n).negativeAcknowledge messageId none = some y) :
    Transition cfg s (.negativeAcknowledge n messageId) (s.move n y s.redis [])
  | negativeAcknowledgeUnknown (n : Node) (messageId : String) :
    Transition cfg s (.negativeAcknowledge n messageId) s
  | checkTimeouts (n : Node) (now : Rat) :
    Transition cfg s (.checkTimeouts n now)
      (s.move n ((s.nodes n).checkTimedOut ((s.nodes n).timedOut now)) s.redis [])
  | rpush (n : Node) (k : Nat) (msg : Message Node Payload)
      (hk : (s.nodes n).calls[k]? = some (.rpush msg)) :
    Transition cfg s (.resume n k)
      (s.move n (((s.nodes n).wake k).suspend (.incr msg)) (s.redis.rpush msg) [.produced msg])
  | incr (n : Node) (k : Nat) (msg : Message Node Payload)
      (hk : (s.nodes n).calls[k]? = some (.incr msg)) :
    Transition cfg s (.resume n k)
      (s.move n ((s.nodes n).wake k) (s.redis.incr msg.home)
        [.counted msg.messageId (s.redis.offset msg.home + 1)])
  | execute (n : Node) (k : Nat) (pipe : List (Message Node Payload))
      (hk : (s.nodes n).calls[k]? = some (.execute pipe)) :
    Transition cfg s (.resume n k)
      (s.move n ((s.nodes n).wake k) (pipe.foldl Redis.rpush s.redis)
        (pipe.reverse.map .batched))
  | lpopEmpty (n : Node) (k : Nat) (topic : String) (p : Int) (rest : List Int) (batchSize : Nat)
      (messages : List (Message Node Payload))
      (hk : (s.nodes n).calls[k]? = some (.lpop topic p rest batchSize messages)) :
    Transition cfg s (.resume n k)
      (s.move n (((s.nodes n).wake k).poll topic batchSize messages rest).1 s.redis
        (returns n (((s.nodes n).wake k).poll topic batchSize messages rest).2))
  | lpop (n : Node) (k : Nat) (topic : String) (p : Int) (rest : List Int) (batchSize : Nat)
      (messages : List (Message Node Payload)) (raw : Message Node Payload)
      (hk : (s.nodes n).calls[k]? = some (.lpop topic p rest batchSize messages))
      (hq : s.redis.queue (topic, p) = raw :: (s.redis.queue (topic, p)).tail)
      (r : QueueNode Node Payload × Option (List (Message Node Payload)))
      (hr : r = (((s.nodes n).wake k).track { raw with partition := p }).poll topic batchSize
        (messages ++ [{ raw with partition := p }]) rest) :
    Transition cfg s (.resume n k)
      (s.move n r.1 (s.redis.pop (topic, p))
        (returns n r.2 ++ [.taken n { raw with partition := p }]))
  | set (n : Node) (k : Nat) (msg : Message Node Payload)
      (hk : (s.nodes n).calls[k]? = some (.set msg)) :
    Transition cfg s (.resume n k)
      (s.move n ((s.nodes n).wake k) (s.redis.commit msg) [.acknowledged n msg])
  | bury (n : Node) (k : Nat) (msg : Message Node Payload) (timedOut : Option (List String))
      (hk : (s.nodes n).calls[k]? = some (.requeue msg timedOut))
      (hmax : cfg.maxRetries ≤ msg.retryCount) :
    Transition cfg s (.resume n k)
      (s.move n (((s.nodes n).wake k).checkTimedOut (timedOut.getD [])) (s.redis.bury msg) [])
  | requeue (n : Node) (k : Nat) (msg : Message Node Payload) (timedOut : Option (List String))
      (hk : (s.nodes n).calls[k]? = some (.requeue msg timedOut))
      (hmax : msg.retryCount < cfg.maxRetries) :
    Transition cfg s (.resume n k)
      (s.move n (((s.nodes n).wake k).checkTimedOut (timedOut.getD [])) (s.redis.lpush msg) [])

variable {cfg : Config Node Payload} {s t : Service Node Payload} {a : Action Node Payload}

theorem resume_cases {n : Node} {k : Nat} (h : s.resume cfg n k = some t) :
    Transition cfg s (.resume n k) t := by
  simp only [Service.resume] at h
  obtain ⟨call, hk, ht⟩ := Option.map_eq_some_iff.mp h
  subst ht
  cases call with
  | rpush msg => exact .rpush n k msg hk
  | incr msg => exact .incr n k msg hk
  | execute pipe => exact .execute n k pipe hk
  | lpop topic p rest batchSize messages =>
    dsimp only
    split
    · exact .lpopEmpty n k topic p rest batchSize messages hk
    · rename_i raw tail hq
      have hhead : s.redis.queue (topic, p) = raw :: (s.redis.queue (topic, p)).tail := by
        rw [hq, List.tail_cons]
      exact .lpop n k topic p rest batchSize messages raw hk hhead _ rfl
  | set msg => exact .set n k msg hk
  | requeue msg timedOut =>
    dsimp only
    split
    · rename_i hmax
      exact .bury n k msg timedOut hk hmax
    · rename_i hmax
      exact .requeue n k msg timedOut hk (not_le.mp hmax)

theorem step_cases (h : (queue cfg).step s a = some t) : Transition cfg s a t := by
  cases a with
  | produce n topic payload key headers messageId timestamp =>
    simp only [queue, Service.step, Service.produce] at h
    split at h
    · cases h
    · rename_i hfresh
      cases h
      exact .produce n topic payload key headers messageId timestamp hfresh
  | produceBatch n topic items =>
    simp only [queue, Service.step, Service.produceBatch] at h
    split at h
    · rename_i hids
      cases h
      exact .produceBatch n topic items hids.1 hids.2
    · cases h
  | consume n topic groupId consumerId partitions batchSize =>
    cases h
    exact .consume n topic groupId consumerId partitions batchSize
  | acknowledge n messageId =>
    simp only [queue, Service.step, Service.acknowledge, QueueNode.acknowledge] at h
    cases hm : (s.nodes n).inFlight.get? messageId with
    | none =>
      rw [hm] at h
      cases h
      exact .acknowledgeUnknown n messageId
    | some msg =>
      rw [hm] at h
      cases h
      exact .acknowledge n messageId msg hm
  | negativeAcknowledge n messageId =>
    simp only [queue, Service.step, Service.negativeAcknowledge] at h
    cases hy : (s.nodes n).negativeAcknowledge messageId none with
    | none =>
      rw [hy] at h
      cases h
      exact .negativeAcknowledgeUnknown n messageId
    | some y =>
      rw [hy] at h
      cases h
      exact .negativeAcknowledge n messageId y hy
  | checkTimeouts n now =>
    simp only [queue, Service.step, Service.checkTimeouts] at h
    split at h
    · cases h
    · cases h
      exact .checkTimeouts n now
  | resume n k => exact resume_cases h

end DistSync.Queue
