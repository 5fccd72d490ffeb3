import DistSync.Progress
import DistSync.Queue.Redelivery

/-! No message is stuck. Whatever was nacked, timed out or left half done before, a message that is
not among the dead letters can still be delivered and acknowledged. -/
namespace DistSync.Queue
variable {Node Payload : Type} [DecidableEq Node] {cfg : Config Node Payload}
  {s : Service Node Payload}

def Service.Acknowledged (s : Service Node Payload) (messageId : String) : Prop :=
  messageId ∈ (acknowledgedMessages s.history).map Message.messageId

def Ends (cfg : Config Node Payload) (s : Service Node Payload) (messageId : String) : Prop :=
  ∃ t, (queue cfg).Leads (fun _ _ => True) s t ∧ t.Acknowledged messageId

theorem Ends.of_step {a : Action Node Payload} {t : Service Node Payload} {messageId : String}
    (hs : (queue cfg).step s a = some t) (h : Ends cfg t messageId) : Ends cfg s messageId := by
  obtain ⟨u, htu, hu⟩ := h
  exact ⟨u, .head ⟨a, trivial, hs⟩ htu, hu⟩

theorem ends_of_set {n : Node} {m : Message Node Payload} (h : .set m ∈ (s.nodes n).calls) :
    Ends cfg s m.messageId := by
  obtain ⟨k, hk⟩ := List.mem_iff_getElem?.mp h
  have hs : (queue cfg).step s (.resume n k) = some (s.move n ((s.nodes n).wake k)
      (s.redis.commit m) [.acknowledged n m]) := by
    simp only [queue, Service.step, Service.resume, hk, Option.map_some]
  refine ⟨_, .of_step trivial hs, ?_⟩
  rw [Service.Acknowledged, move_history, acknowledgedMessages_append]
  exact List.mem_cons_self

theorem ends_of_inFlight {n : Node} {m : Message Node Payload}
    (h : (s.nodes n).inFlight.get? m.messageId = some m) : Ends cfg s m.messageId := by
  have hs : (queue cfg).step s (.acknowledge n m.messageId) = some (s.move n
      (((s.nodes n).untrack m.messageId).suspend (.set m)) s.redis [.acknowledging n m]) := by
    simp only [queue, Service.step, Service.acknowledge, QueueNode.acknowledge, h, Option.map_some]
  refine .of_step hs (ends_of_set (n := n) ?_)
  rw [move_self]
  exact List.mem_append_right _ List.mem_cons_self

def QueueNode.asking (x : QueueNode Node Payload) (topic : String) (p : Int) :
    QueueNode Node Payload :=
  (x.joinGroup "group" topic "consumer").suspend (.lpop topic p [] 1 [])

theorem step_consume (n : Node) (topic : String) (p : Int) :
    (queue cfg).step s (.consume n topic "group" "consumer" (some [p]) 1) =
      some (s.move n ((s.nodes n).asking topic p) s.redis []) := by
  simp [queue, Service.step, Service.consume, QueueNode.consume, QueueNode.poll, returns,
    QueueNode.asking]

variable (cfg) in
theorem leads_delivered (n : Node) {topic : String} {p : Int} {raw : Message Node Payload}
    {tail : List (Message Node Payload)} (hq : s.redis.queue (topic, p) = raw :: tail) :
    ∃ t, (queue cfg).Leads (fun _ _ => True) s t ∧
      (t.nodes n).inFlight.get? raw.messageId = some { raw with partition := p } ∧
      t.redis.queue (topic, p) = tail := by
  generalize hu : s.move n ((s.nodes n).asking topic p) s.redis [] = u
  have hask : (queue cfg).step s (.consume n topic "group" "consumer" (some [p]) 1) = some u := by
    rw [step_consume, hu]
  have hk : (u.nodes n).calls[(s.nodes n).calls.length]? = some (.lpop topic p [] 1 []) := by
    rw [← hu, move_self]
    exact List.getElem?_concat_length
  have hpop : (queue cfg).step u (.resume n (s.nodes n).calls.length) = some (u.move n
      (((u.nodes n).wake (s.nodes n).calls.length).track { raw with partition := p })
      (u.redis.pop (topic, p))
      (returns n (some [{ raw with partition := p }]) ++ [.taken n { raw with partition := p }])) := by
    have hqu : u.redis.queue (topic, p) = raw :: tail := by rw [← hu, move_redis, hq]
    simp only [queue, Service.step, Service.resume, hk, hqu, Option.map_some]
    rfl
  refine ⟨_, .tail (System.Leads.of_step trivial hask) ⟨_, trivial, hpop⟩, ?_, ?_⟩
  · rw [move_self]
    exact Dict.get?_set_self _ _ _
  · rw [move_redis, queue_pop, if_pos rfl, ← hu, move_redis, hq, List.tail_cons]

theorem ends_of_listed (hr : (queue cfg).Reachable s) (n : Node) (home : TopicPartition)
    {m : Message Node Payload} (hm : m ∈ s.redis.queue home) : Ends cfg s m.messageId := by
  induction hl : (s.redis.queue home).length generalizing s with
  | zero =>
    rw [List.eq_nil_of_length_eq_zero hl] at hm
    cases hm
  | succ len ih =>
    obtain ⟨raw, tail, hq⟩ := List.exists_cons_of_length_eq_add_one hl
    obtain ⟨t, hst, hflight, htail⟩ := leads_delivered cfg n hq
    have hmt : Ends cfg t m.messageId := by
      rw [hq] at hm
      cases List.mem_cons.mp hm with
      | inr hm =>
        refine ih (hst.reachable hr) (htail ▸ hm) ?_
        rw [hq, List.length_cons] at hl
        rw [htail]
        omega
      | inl he =>
        subst he
        exact ends_of_inFlight (m := { m with partition := home.2 }) hflight
    obtain ⟨u, htu, hu⟩ := hmt
    exact ⟨u, hst.trans htu, hu⟩

theorem ends_of_waiting (hr : (queue cfg).Reachable s) {n : Node} {m : Message Node Payload}
    (hm : m ∈ (s.nodes n).shelf .waiting) : Ends cfg s m.messageId := by
  obtain ⟨call, hcall, hmc⟩ := List.mem_flatMap.mp
    ((List.mem_append.mp hm).resolve_left List.not_mem_nil)
  obtain ⟨k, hk⟩ := List.mem_iff_getElem?.mp hcall
  cases call with
  | rpush msg =>
    cases List.mem_singleton.mp hmc
    have hs : (queue cfg).step s (.resume n k) = some (s.move n
        (((s.nodes n).wake k).suspend (.incr m)) (s.redis.rpush m) [.produced m]) := by
      simp only [queue, Service.step, Service.resume, hk, Option.map_some]
    refine .of_step hs (ends_of_listed (.step hr trivial hs) n m.home ?_)
    rw [move_redis, queue_rpush, if_pos rfl]
    exact List.mem_append_right _ List.mem_cons_self
  | execute pipe =>
    have hs : (queue cfg).step s (.resume n k) = some (s.move n ((s.nodes n).wake k)
        (pipe.foldl Redis.rpush s.redis) (pipe.reverse.map .batched)) := by
      simp only [queue, Service.step, Service.resume, hk, Option.map_some]
    refine .of_step hs (ends_of_listed (.step hr trivial hs) n m.home ?_)
    rw [move_redis, queue_foldl_rpush]
    exact List.mem_append_right _ (List.mem_filter.mpr ⟨hmc, decide_eq_true rfl⟩)
  | _ => cases hmc

theorem ends_of_carried (hr : (queue cfg).Reachable s) {n : Node} {m : Message Node Payload}
    (hm : m ∈ (s.nodes n).shelf .carried) (hlast : m.retryCount < cfg.maxRetries) :
    Ends cfg s m.messageId := by
  obtain ⟨call, hcall, hmc⟩ := List.mem_flatMap.mp
    ((List.mem_append.mp hm).resolve_left List.not_mem_nil)
  obtain ⟨k, hk⟩ := List.mem_iff_getElem?.mp hcall
  cases call with
  | requeue msg timedOut =>
    cases List.mem_singleton.mp hmc
    have hs : (queue cfg).step s (.resume n k) = some (s.move n
        (((s.nodes n).wake k).checkTimedOut (timedOut.getD [])) (s.redis.lpush m) []) := by
      simp only [queue, Service.step, Service.resume, hk, Option.map_some,
        if_neg (not_le.mpr hlast)]
    refine .of_step hs (ends_of_listed (.step hr trivial hs) n m.home ?_)
    rw [move_redis, queue_lpush, if_pos rfl]
    exact List.mem_append_left _ List.mem_cons_self
  | _ => cases hmc

/-- No message is stuck: from every state that can be reached, steps lead to the acknowledgement
of each message that is not dead, nor given back for the last time. -/
theorem no_message_stuck (hr : (queue cfg).Reachable s) {i : Spot Node} {m : Message Node Payload}
    (hm : m ∈ s.box i) (hdead : ∀ home, i ≠ .dead home)
    (hlast : ∀ n, i = .node n .carried → m.retryCount < cfg.maxRetries) :
    Ends cfg s m.messageId := by
  obtain ⟨place, hk⟩ := kept_reach hr
  cases i with
  | queue home => exact ends_of_listed hr m.producerId home hm
  | dead home => exact absurd rfl (hdead home)
  | done => exact ⟨s, .refl, List.mem_map_of_mem hm⟩
  | node n sh =>
    cases sh with
    | waiting => exact ends_of_waiting hr hm
    | carried => exact ends_of_carried hr hm (hlast n rfl)
    | inFlight =>
      cases List.mem_append.mp hm with
      | inl hflight =>
        obtain ⟨e, he, rfl⟩ := List.mem_map.mp hflight
        refine ends_of_inFlight (n := n) ?_
        rw [hk.keyed n e he]
        exact Dict.get?_eq_some.mpr he
      | inr hcalls =>
        obtain ⟨call, -, hmc⟩ := List.mem_flatMap.mp hcalls
        cases call <;> cases hmc
    | committing =>
      obtain ⟨call, hcall, hmc⟩ := List.mem_flatMap.mp
        ((List.mem_append.mp hm).resolve_left List.not_mem_nil)
      cases call with
      | set msg =>
        cases List.mem_singleton.mp hmc
        exact ends_of_set hcall
      | _ => cases hmc

theorem no_message_stuck_lateReturn : ∃ s,
    (queue plain).run (queue plain).init (lateReturn.take 7) = some s ∧ Ends plain s "m" := by
  have hrun : ((queue plain).run (queue plain).init (lateReturn.take 7)).any (fun s =>
      (s.redis.queue ("orders", 0)).map Message.messageId = ["m"]) = true := by
    decide +kernel
  obtain ⟨s, hs, hh⟩ := (Option.any_eq_true ..).mp hrun
  have hlist : "m" ∈ (s.redis.queue ("orders", 0)).map Message.messageId :=
    of_decide_eq_true hh ▸ List.mem_cons_self
  obtain ⟨m, hm, hid⟩ := List.mem_map.mp hlist
  rw [← hid]
  exact ⟨s, hs, no_message_stuck (System.reachable_run hs) (i := .queue ("orders", 0)) hm
    nofun nofun⟩

end DistSync.Queue
