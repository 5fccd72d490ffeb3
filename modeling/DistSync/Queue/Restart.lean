import DistSync.Queue.Exchange

/-! Crash and restart. `recover_in_flight` puts back what it finds under `inflight:*`, but no
operation writes there: what a node holds in memory as it crashes is lost, and what is in a reply
that it has not got. -/
namespace DistSync.Queue
variable {Node Payload : Type} [DecidableEq Node] {cfg : Config Node Payload}

/-- One turn of the loop of `recover_in_flight`. -/
def Redis.recover (r : Redis Node Payload) (key : String) : Redis Node Payload :=
  match r.inflight.get? key with
  | some msg => { r.lpush msg with inflight := r.inflight.erase key }
  | none => r

def Redis.recoverInFlight (r : Redis Node Payload) : Redis Node Payload :=
  r.inflight.keys.foldl Redis.recover r

/-- All nodes crash, start again and recover; Redis keeps its data. -/
def Service.restarted (s : Service Node Payload) : Service Node Payload where
  redis := s.redis.recoverInFlight
  nodes := fun _ => {}
  history := s.history

/-- Each message that was produced and for which `acknowledge` never returned `True` is in the
list or the dead-letter list of its partition. -/
def Service.Survives (s : Service Node Payload) : Prop :=
  ∀ m ∈ pushes s.history,
    m.messageId ∉ (acknowledgedMessages s.history).map Message.messageId →
      m.messageId ∈ (s.redis.queue m.home).map Message.messageId ∨
        m.messageId ∈ (s.redis.dlq m.home).map Message.messageId

/-- No message is in flight or held by a `negative_acknowledge` before its push or an
`acknowledge` before its `set`. -/
def QueueNode.HoldsNothing (x : QueueNode Node Payload) : Prop :=
  ∀ sh, sh ≠ .waiting → x.shelf sh = []

/-- The message that a reply brings, or that is acknowledged once it is there. -/
def Reply.message : Reply Node Payload → Option (Message Node Payload)
  | .lpop _ _ _ _ _ raw => raw
  | .set msg => some msg
  | _ => none

structure Exchange.HoldsNothing (w : Exchange Node Payload) : Prop where
  nodes : ∀ n, (w.service.nodes n).HoldsNothing
  replies : ∀ n, ∀ reply ∈ w.replies n, reply.message = none

section Recovery
variable {w u : Exchange Node Payload}

omit [DecidableEq Node] in
theorem inflight_execute (r : Redis Node Payload) (call : Call Node Payload) :
    (r.execute cfg call).1.inflight = r.inflight := by
  have hpush (pipe : List (Message Node Payload)) (r : Redis Node Payload) :
      (pipe.foldl Redis.rpush r).inflight = r.inflight := by
    induction pipe generalizing r with
    | nil => rfl
    | cons m pipe ih => exact ih (r.rpush m)
  cases call with
  | execute pipe => exact hpush pipe r
  | lpop topic p rest batchSize messages =>
    simp only [Redis.execute]
    split <;> rfl
  | requeue msg timedOut =>
    simp only [Redis.execute]
    split <;> rfl
  | _ => rfl

theorem inflight_begin {a : Action Node Payload} (hb : w.begins a = true) {s : Service Node Payload}
    (hs : (queue cfg).step w.service a = some s) :
    s.redis.inflight = w.service.redis.inflight := by
  cases a with
  | resume n k => cases hb
  | _ => cases step_cases hs <;> rfl

theorem inflight_signal {a : Signal Node Payload} (hs : (exchange cfg).step w a = some u) :
    u.service.redis.inflight = w.service.redis.inflight := by
  cases a with
  | begin a =>
    obtain ⟨s, hb, ht, rfl⟩ := begin_eq_some hs
    exact inflight_begin hb ht
  | execute n k =>
    obtain ⟨call, -, rfl⟩ := execute_eq_some hs
    exact inflight_execute _ call
  | hear n j =>
    obtain ⟨reply, -, rfl⟩ := hear_eq_some hs
    rfl

/-- There is nothing to recover. -/
theorem recoverInFlight_reach (h : (exchange cfg).Reachable w) :
    w.service.redis.recoverInFlight = w.service.redis := by
  have hempty : w.service.redis.inflight = ∅ := by
    refine h.invariant (I := fun w => w.service.redis.inflight = ∅) rfl fun w a u _ hi _ hs => ?_
    rw [inflight_signal hs, hi]
  rw [Redis.recoverInFlight, hempty]
  rfl

omit [DecidableEq Node] in
theorem standIns_eq_nil {replies : List (Reply Node Payload)}
    (h : ∀ reply ∈ replies, reply.message = none) : standIns replies = [] := by
  refine List.filterMap_eq_nil_iff.mpr fun reply hreply => ?_
  have hnone := h reply hreply
  cases reply with
  | lpop topic p rest batchSize messages raw =>
    cases raw with
    | none => rfl
    | some raw => cases hnone
  | set msg => cases hnone
  | _ => rfl

omit [DecidableEq Node] in
theorem message_eq_none {replies : List (Reply Node Payload)}
    (h : ∀ sh, sh ≠ .waiting → (standIns replies).flatMap (fun c => c.shelf sh) = [])
    {reply : Reply Node Payload} (hreply : reply ∈ replies) : reply.message = none := by
  have hshelf {call : Call Node Payload} (hcall : reply.standIn = some call) (sh : Shelf)
      (hsh : sh ≠ .waiting) : call.shelf sh = [] :=
    List.flatMap_eq_nil_iff.mp (h sh hsh) call (List.mem_filterMap.mpr ⟨reply, hreply, hcall⟩)
  cases reply with
  | lpop topic p rest batchSize messages raw =>
    cases raw with
    | none => rfl
    | some raw => exact nomatch hshelf rfl .carried nofun
  | set msg => exact nomatch hshelf rfl .committing nofun
  | _ => rfl

omit [DecidableEq Node] in
theorem holdsNothing_ledger : (∀ n, (w.ledger.nodes n).HoldsNothing) ↔ w.HoldsNothing := by
  have hshelf (n : Node) (sh : Shelf) :=
    shelf_behind (w.service.nodes n) (standIns (w.replies n)) sh
  constructor
  · intro h
    have hnil (n : Node) (sh : Shelf) (hsh : sh ≠ .waiting) :=
      List.append_eq_nil_iff.mp (List.perm_nil.mp ((h n sh hsh) ▸ (hshelf n sh).symm))
    exact ⟨fun n sh hsh => (hnil n sh hsh).2,
      fun n reply hreply => message_eq_none (fun sh hsh => (hnil n sh hsh).1) hreply⟩
  · intro h n sh hsh
    refine List.perm_nil.mp ((hshelf n sh).trans ?_)
    rw [standIns_eq_nil (h.replies n), h.nodes n sh hsh]
    exact .refl _

end Recovery

section Survival
variable {s : Service Node Payload}

theorem Kept.survives {place : String → Option (Spot Node)} (h : Kept s place)
    (hnone : ∀ n, (s.nodes n).HoldsNothing) : s.Survives := by
  intro m hm hacked
  obtain ⟨i, hw, hhome, hcopies⟩ := h.inOnePlace hm
  have hpos : 0 < copies Message.messageId m.messageId (s.box i) := by
    rw [hcopies, if_pos rfl]
    exact Nat.one_pos
  have hmem : m.messageId ∈ (s.box i).map Message.messageId :=
    List.mem_map.mpr (copies_pos.mp hpos)
  cases i with
  | node n sh =>
    have hsh : sh ≠ .waiting := by
      intro heq
      subst heq
      cases hw
    rw [Service.box, hnone n sh hsh] at hmem
    cases hmem
  | queue home =>
    obtain rfl := hhome home rfl
    exact .inl hmem
  | dead home =>
    obtain rfl := hhome home rfl
    exact .inr hmem
  | done => exact absurd hmem hacked

theorem Kept.holdsNothing {place : String → Option (Spot Node)} (h : Kept s place)
    (hsurvives : s.Survives) (n : Node) : (s.nodes n).HoldsNothing := by
  intro sh hsh
  refine List.eq_nil_iff_forall_not_mem.mpr fun m hm => ?_
  have hw : Spot.waits (.node n sh) = false := by
    cases sh with
    | waiting => exact absurd rfl hsh
    | _ => rfl
  have hplace : place m.messageId = some (.node n sh) := h.custody.place_of_mem hm
  obtain ⟨m₀, hm₀, hid, -⟩ := h.origin (.node n sh) hw m hm
  -- it is on the shelf, so neither done nor in a list
  have helsewhere {i : Spot Node} (hi : m₀.messageId ∈ (s.box i).map Message.messageId) :
      i = .node n sh := by
    obtain ⟨m₁, hm₁, hid₁⟩ := List.mem_map.mp hi
    have hplace₁ := h.custody.place_of_mem hm₁
    rw [hid₁, hid, hplace] at hplace₁
    exact (Option.some.inj hplace₁).symm
  have hacked : m₀.messageId ∉ (acknowledgedMessages s.history).map Message.messageId :=
    fun hd => nomatch helsewhere (i := .done) hd
  cases hsurvives m₀ hm₀ hacked with
  | inl hq => exact nomatch helsewhere (i := .queue m₀.home) hq
  | inr hd => exact nomatch helsewhere (i := .dead m₀.home) hd

end Survival

/-- After a crash at any point all messages that need to be are there, exactly if neither the
nodes nor the replies under way to them held one. -/
theorem survives_restart_iff {w : Exchange Node Payload} (h : (exchange cfg).Reachable w) :
    w.service.restarted.Survives ↔ w.HoldsNothing := by
  obtain ⟨place, hk⟩ := kept_exchange h
  have hsame : w.service.restarted.Survives ↔ w.ledger.Survives := by
    unfold Service.Survives Service.restarted
    rw [recoverInFlight_reach h]
    exact Iff.rfl
  rw [hsame, ← holdsNothing_ledger]
  exact ⟨hk.holdsNothing, hk.survives⟩

/-- The only node takes a message, or has yet to learn that it has. -/
def consumed : List (Signal Unit Nat) :=
  [.begin (.produce () "orders" 7 none [] "m" 0), .execute () 0, .hear () 0, .execute () 0,
    .hear () 0, .begin (.consume () "orders" "group" "a" (some [0]) 1), .execute () 0, .hear () 0]

theorem survives_restart_iff_consumed :
    ∃ w, (exchange plain).run (exchange plain).init consumed = some w ∧
      (w.service.restarted.Survives ↔ w.HoldsNothing) := by
  have hrun : ((exchange plain).run (exchange plain).init consumed).isSome = true := by
    decide +kernel
  obtain ⟨w, hw⟩ := Option.isSome_iff_exists.mp hrun
  exact ⟨w, hw, survives_restart_iff (System.reachable_run hw)⟩

instance (s : Service Node Payload) : Decidable s.Survives :=
  inferInstanceAs (Decidable (∀ m ∈ pushes s.history, _ → _))

theorem not_survives_restart_consumed :
    (∃ w, (exchange plain).run (exchange plain).init consumed = some w ∧
      ¬ w.service.restarted.Survives) ∧
    ∃ w, (exchange plain).run (exchange plain).init consumed.dropLast = some w ∧
      ¬ w.service.restarted.Survives := by
  have hflight : ((exchange plain).run (exchange plain).init consumed).any (fun w =>
      ¬ w.service.restarted.Survives) = true := by
    decide +kernel
  have hreply : ((exchange plain).run (exchange plain).init consumed.dropLast).any (fun w =>
      ¬ w.service.restarted.Survives) = true := by
    decide +kernel
  obtain ⟨w, hw, hlost⟩ := (Option.any_eq_true ..).mp hflight
  obtain ⟨u, hu, hlost'⟩ := (Option.any_eq_true ..).mp hreply
  exact ⟨⟨w, hw, of_decide_eq_true hlost⟩, u, hu, of_decide_eq_true hlost'⟩

end DistSync.Queue
