import DistSync.Queue.Ledger

/-! The order of a partition. A requeued message goes to the front of its list, which is its
place only if it was first pushed before all that the list holds. -/
namespace DistSync.Queue
variable {Node Payload : Type} {cfg : Config Node Payload}
  {s t : Service Node Payload} {a : Action Node Payload}

def firstPushes (h : List (Event Node Payload)) (home : TopicPartition) : List String :=
  ((pushes h).reverse.filter fun m => m.home = home).map Message.messageId

def Redis.listed (r : Redis Node Payload) (home : TopicPartition) : List String :=
  (r.queue home).map Message.messageId

def Service.Ordered (s : Service Node Payload) : Prop :=
  ∀ home, (s.redis.listed home).Sublist (firstPushes s.history home)

/-- A message that is pushed again, and not to the dead-letter list, was first pushed before
the message now at the head of its list. -/
def RequeuesInOrder (cfg : Config Node Payload) (s : Service Node Payload) :
    Action Node Payload → Prop
  | .resume n k =>
    match (s.nodes n).calls[k]? with
    | some (.requeue msg _) => msg.retryCount < cfg.maxRetries →
      ∀ first ∈ (s.redis.listed msg.home).head?,
        [msg.messageId, first].Sublist (firstPushes s.history msg.home)
    | _ => True
  | _ => True

section Sublist
variable {α : Type} {x : α} {l F : List α}

theorem cons_sublist_of_not_mem {F₁ F₂ : List α} (hx : x ∉ F₁) (h : (x :: l).Sublist (F₁ ++ F₂)) :
    (x :: l).Sublist F₂ := by
  induction F₁ with
  | nil => exact h
  | cons z F₁ ih =>
    rw [List.mem_cons, not_or] at hx
    cases h with
    | cons _ h => exact ih hx.2 h
    | cons_cons _ h => exact absurd rfl hx.1

theorem sublist_cons_iff (hn : F.Nodup) (hx : x ∈ F) (hl : l.Sublist F) (hxl : x ∉ l) :
    (x :: l).Sublist F ↔ ∀ y ∈ l.head?, [x, y].Sublist F := by
  cases l with
  | nil => simpa using hx
  | cons y l =>
    simp only [List.head?_cons, Option.mem_def, Option.some.injEq, forall_eq']
    constructor
    · intro h
      exact (((List.nil_sublist l).cons_cons y).cons_cons x).trans h
    · intro h
      obtain ⟨F₁, F₂, rfl⟩ := List.append_of_mem hx
      have hx₁ : x ∉ F₁ := fun hm =>
        (List.nodup_cons.mp (List.nodup_middle.mp hn)).1 (List.mem_append_left F₂ hm)
      have hy₂ : y ∈ F₂ := by
        have hpair := cons_sublist_of_not_mem hx₁ h
        exact List.singleton_sublist.mp (List.cons_sublist_cons.mp hpair)
      have hy₁ : y ∉ F₁ ++ [x] := by
        rw [List.append_cons] at hn
        exact fun hy => List.disjoint_of_nodup_append hn hy hy₂
      have hrest : (y :: l).Sublist F₂ := by
        rw [List.append_cons] at hl
        exact cons_sublist_of_not_mem hy₁ hl
      exact (hrest.cons_cons x).trans (List.sublist_append_right F₁ (x :: F₂))

end Sublist

theorem firstPushes_append (evs h : List (Event Node Payload)) (home : TopicPartition) :
    firstPushes (evs ++ h) home = firstPushes h home ++ firstPushes evs home := by
  rw [firstPushes, pushes_append, List.reverse_append, List.filter_append, List.map_append]
  rfl

theorem firstPushes_nodup {h : List (Event Node Payload)}
    (hn : ((pushes h).map Message.messageId).Nodup) (home : TopicPartition) :
    (firstPushes h home).Nodup := by
  rw [← List.nodup_reverse, ← List.map_reverse] at hn
  exact hn.sublist (List.filter_sublist.map _)

theorem mem_firstPushes {h : List (Event Node Payload)} {m : Message Node Payload}
    (hm : m ∈ pushes h) : m.messageId ∈ firstPushes h m.home := by
  refine List.mem_map_of_mem (List.mem_filter.mpr ⟨List.mem_reverse.mpr hm, ?_⟩)
  exact decide_eq_true rfl

section Step
variable {n : Node} {y : QueueNode Node Payload} {r : Redis Node Payload}
  {evs : List (Event Node Payload)} [DecidableEq Node]

theorem ordered_move (h : s.Ordered)
    (hr : ∀ home, (r.listed home).Sublist (s.redis.listed home ++ firstPushes evs home)) :
    (s.move n y r evs).Ordered := by
  intro home
  rw [move_history, firstPushes_append]
  exact (hr home).trans ((h home).append_right _)

theorem ordered_of_sublist (h : s.Ordered)
    (hr : ∀ home, (r.queue home).Sublist (s.redis.queue home)) : (s.move n y r evs).Ordered :=
  ordered_move h fun home => ((hr home).map _).trans (List.sublist_append_left _ _)

theorem ordered_foldl_rpush (h : s.Ordered) (pipe : List (Message Node Payload))
    (hpipe : (pushes evs).reverse = pipe) :
    (s.move n y (pipe.foldl Redis.rpush s.redis) evs).Ordered := by
  refine ordered_move h fun home => ?_
  rw [Redis.listed, queue_foldl_rpush, List.map_append, firstPushes, hpipe]
  exact .refl _

theorem ordered_requeue {place : String → Option (Spot Node)} (hk : Kept s place) (h : s.Ordered)
    {k : Nat} {msg : Message Node Payload} {timedOut : Option (List String)}
    (hc : (s.nodes n).calls[k]? = some (.requeue msg timedOut)) :
    (s.move n y (s.redis.lpush msg) []).Ordered ↔
      ∀ first ∈ (s.redis.listed msg.home).head?,
        [msg.messageId, first].Sublist (firstPushes s.history msg.home) := by
  have hmem : msg ∈ s.box (.node n .carried) :=
    (shelf_wake _ hc .carried).symm.subset List.mem_cons_self
  have hplace := hk.custody.place_of_mem hmem
  have hpushed : msg.messageId ∈ firstPushes s.history msg.home := by
    obtain ⟨m, hm, hid, hhome⟩ := hk.origin (.node n .carried) rfl msg hmem
    exact hid ▸ hhome ▸ mem_firstPushes hm
  have hout : msg.messageId ∉ s.redis.listed msg.home := by
    intro hin
    obtain ⟨m, hm, hid⟩ := List.mem_map.mp hin
    have hlisted := hk.custody.place_of_mem (i := .queue msg.home) hm
    rw [hid, hplace] at hlisted
    cases hlisted
  rw [← sublist_cons_iff (firstPushes_nodup hk.once _) hpushed (h msg.home) hout]
  have hfront (home : TopicPartition) : (s.redis.lpush msg).listed home =
      (if msg.home = home then [msg.messageId] else []) ++ s.redis.listed home := by
    rw [Redis.listed, queue_lpush, List.map_append, Redis.listed]
    split <;> rfl
  constructor
  · intro ht
    have hhome := ht msg.home
    rw [move_redis, hfront, if_pos rfl] at hhome
    exact hhome
  · intro hcons home
    rw [move_redis, hfront]
    split
    · rename_i hhome
      exact hhome ▸ hcons
    · exact h home

end Step

variable [DecidableEq Node]

/-- A step breaks the order exactly if it requeues a message behind its turn. -/
theorem ordered_step {place : String → Option (Spot Node)} (hk : Kept s place) (h : s.Ordered)
    (hs : (queue cfg).step s a = some t) : t.Ordered ↔ RequeuesInOrder cfg s a := by
  cases step_cases hs with
  | requeue n k msg timedOut hc hmax =>
    rw [ordered_requeue hk h hc]
    simp only [RequeuesInOrder, hc]
    exact (imp_iff_right hmax).symm
  | bury n k msg timedOut hc hmax =>
    refine iff_of_true (ordered_of_sublist h fun _ => .refl _) ?_
    simp [RequeuesInOrder, hc, hmax.not_gt]
  | rpush n k msg hc =>
    exact iff_of_true (ordered_foldl_rpush h [msg] rfl) (by simp [RequeuesInOrder, hc])
  | execute n k pipe hc =>
    refine iff_of_true (ordered_foldl_rpush h pipe ?_) (by simp [RequeuesInOrder, hc])
    simp [pushes]
  | lpop n k topic p rest batchSize messages raw hc hq r hr =>
    refine iff_of_true (ordered_of_sublist h fun home => ?_) (by simp [RequeuesInOrder, hc])
    rw [queue_pop]
    split
    · exact List.tail_sublist _
    · exact .refl _
  | lpopEmpty n k topic p rest batchSize messages hc =>
    exact iff_of_true (ordered_of_sublist h fun _ => .refl _) (by simp [RequeuesInOrder, hc])
  | incr n k msg hc =>
    exact iff_of_true (ordered_of_sublist h fun _ => .refl _) (by simp [RequeuesInOrder, hc])
  | set n k msg hc =>
    exact iff_of_true (ordered_of_sublist h fun _ => .refl _) (by simp [RequeuesInOrder, hc])
  | acknowledgeUnknown n messageId => exact iff_of_true h trivial
  | negativeAcknowledgeUnknown n messageId => exact iff_of_true h trivial
  | _ => exact iff_of_true (ordered_of_sublist h fun _ => .refl _) trivial

/-- In every run the lists stay in order exactly if all requeued messages come back in turn. -/
theorem ordered_iff (cfg : Config Node Payload) (as : List (Action Node Payload)) :
    (queue cfg).Along (fun _ _ t => t.Ordered) (queue cfg).init as ↔
      (queue cfg).Along (fun s a _ => RequeuesInOrder cfg s a) (queue cfg).init as := by
  have hinit : (queue cfg).init.Ordered := fun _ => List.Sublist.refl []
  refine System.along_invariant_iff (fun s a t hr h hs => ?_) .init hinit as
  obtain ⟨place, hk⟩ := kept_reach hr
  exact ordered_step hk h hs

/-- Two messages are in flight, and the first that was consumed is the first to come back. -/
def nackedInTurn : List (Action Unit Nat) :=
  [.produce () "orders" 7 none [] "m" 0, .resume () 0, .resume () 0,
   .produce () "orders" 8 none [] "m'" 1, .resume () 0, .resume () 0,
   .consume () "orders" "group" "a" (some [0]) 1, .resume () 0,
   .consume () "orders" "group" "a" (some [0]) 1, .resume () 0,
   .negativeAcknowledge () "m", .resume () 0,
   .negativeAcknowledge () "m'", .resume () 0]

theorem not_ordered_nackedInTurn :
    ∃ s, (queue plain).run (queue plain).init nackedInTurn = some s ∧ ¬ s.Ordered := by
  have hrun : ((queue plain).run (queue plain).init nackedInTurn).any (fun s =>
      ¬ (s.redis.listed ("orders", 0)).Sublist (firstPushes s.history ("orders", 0))) = true := by
    decide +kernel
  obtain ⟨s, hs, hh⟩ := (Option.any_eq_true ..).mp hrun
  exact ⟨s, hs, fun h => of_decide_eq_true hh (h ("orders", 0))⟩

end DistSync.Queue
