import DistSync.Queue.Boxes

/-! Every step ships messages from box to box, and the books are right after it: which messages
were created, which pushed and to which partition, and which acknowledged. -/
namespace DistSync.Queue
variable {Node Payload : Type} {cfg : Config Node Payload}
  {s t : Service Node Payload}

/-- First pushes, newest first. -/
def pushes (h : List (Event Node Payload)) : List (Message Node Payload) :=
  h.filterMap fun
    | .produced msg => some msg
    | .batched msg => some msg
    | _ => none

theorem pushes_append (h h' : List (Event Node Payload)) :
    pushes (h ++ h') = pushes h ++ pushes h' :=
  List.filterMap_append

theorem createdIds_append (h h' : List (Event Node Payload)) :
    createdIds (h ++ h') = createdIds h ++ createdIds h' :=
  List.filterMap_append

theorem acknowledgedMessages_append (h h' : List (Event Node Payload)) :
    acknowledgedMessages (h ++ h') = acknowledgedMessages h ++ acknowledgedMessages h' :=
  List.filterMap_append

/-- Before the first push. -/
def Spot.waits : Spot Node → Bool
  | .node _ .waiting => true
  | _ => false

/-- With an `acknowledge`, or done. -/
def Spot.settled : Spot Node → Bool
  | .node _ .committing => true
  | .done => true
  | _ => false

/-- The partition whose list the box is. -/
def Spot.home? : Spot Node → Option TopicPartition
  | .queue home => some home
  | .dead home => some home
  | _ => none

def QueueNode.Keyed (x : QueueNode Node Payload) : Prop :=
  ∀ e ∈ x.inFlight.entries, e.2.messageId = e.1

variable [DecidableEq Node]

/-- `place` says where each message is. -/
structure Kept (s : Service Node Payload) (place : String → Option (Spot Node)) : Prop where
  custody : Custody Message.messageId s.box place
  keyed : ∀ n, (s.nodes n).Keyed
  created : ∀ messageId i, place messageId = some i → messageId ∈ createdIds s.history
  filed : ∀ i home, i.home? = some home → ∀ m ∈ s.box i, m.home = home
  once : ((pushes s.history).map Message.messageId).Nodup
  pushed : ∀ m ∈ pushes s.history, ∃ i, place m.messageId = some i ∧ i.waits = false
  origin : ∀ i, i.waits = false → ∀ m ∈ s.box i,
    ∃ m' ∈ pushes s.history, m'.messageId = m.messageId ∧ m'.home = m.home
  acknowledging : ∀ n m, .acknowledging n m ∈ s.history →
    ∃ i, place m.messageId = some i ∧ i.settled = true

/-- What else a step does that ships `ms` from `src` to `dest`. -/
structure Books (s t : Service Node Payload) (ms : List (Message Node Payload))
    (src : Option (Spot Node)) (dest : Message Node Payload → Spot Node) : Prop where
  keyed : ∀ n, (t.nodes n).Keyed
  created : createdIds s.history ⊆ createdIds t.history ∧
    ∀ m ∈ ms, m.messageId ∈ createdIds t.history
  filed : ∀ m ∈ ms, ∀ home, (dest m).home? = some home → m.home = home
  waits : ∀ m ∈ ms, (dest m).waits = true ↔ src = none
  pushes : (pushes t.history).Perm ((if src.any Spot.waits then ms else []) ++ pushes s.history)
  settled : src.any Spot.settled = true → ∀ m ∈ ms, (dest m).settled = true
  acknowledging : ∀ n m, .acknowledging n m ∈ t.history → .acknowledging n m ∈ s.history ∨
    ∃ m' ∈ ms, m'.messageId = m.messageId ∧ (dest m').settled = true

section Ship
variable {place : String → Option (Spot Node)} {ms : List (Message Node Payload)}
  {src : Option (Spot Node)} {dest : Message Node Payload → Spot Node}
  {f : Message Node Payload → Message Node Payload}

theorem Kept.ship_once (h : Kept s place) (hb : Books s t ms src dest)
    (hnodup : (ms.map Message.messageId).Nodup) (hsrc : ∀ m ∈ ms, place m.messageId = src) :
    ((pushes t.history).map Message.messageId).Nodup := by
  refine (hb.pushes.map _).nodup_iff.mpr ?_
  rw [List.map_append]
  refine List.nodup_append.mpr ⟨?_, h.once, ?_⟩
  · split
    · exact hnodup
    · exact List.nodup_nil
  · intro id hid id' hid' he
    split at hid
    · rename_i hw
      obtain ⟨m, hm, rfl⟩ := List.mem_map.mp hid
      obtain ⟨m', hm', he'⟩ := List.mem_map.mp hid'
      obtain ⟨i, hi, hwaits⟩ := h.pushed m' hm'
      rw [he', ← he, hsrc m hm] at hi
      rw [hi, Option.any_some, hwaits] at hw
      cases hw
    · cases hid

theorem Kept.ship_pushed (h : Kept s place) (hb : Books s t ms src dest)
    (hsrc : ∀ m ∈ ms, place m.messageId = src) {m : Message Node Payload}
    (hm : m ∈ pushes t.history) :
    ∃ i, redirect Message.messageId ms dest place m.messageId = some i ∧ i.waits = false := by
  cases redirect_cases Message.messageId ms dest place m.messageId with
  | inl hshipped =>
    obtain ⟨m', hm', hid, hr⟩ := hshipped
    refine ⟨dest m', hr, Bool.eq_false_iff.mpr fun hw => ?_⟩
    have hnone := (hb.waits m' hm').mp hw
    rw [hnone] at hb
    have hold : m ∈ pushes s.history := by simpa using hb.pushes.subset hm
    obtain ⟨i, hi, -⟩ := h.pushed m hold
    rw [← hid, hsrc m' hm', hnone] at hi
    cases hi
  | inr hother =>
    rw [hother.2]
    cases List.mem_append.mp (hb.pushes.subset hm) with
    | inl hnew =>
      split at hnew
      · exact absurd rfl (hother.1 m hnew)
      · cases hnew
    | inr hold => exact h.pushed m hold

theorem Kept.ship_origin (h : Kept s place)
    (hs : Shipment Message.messageId s.box t.box ms src dest f) (hb : Books s t ms src dest)
    (hhome : ∀ m ∈ ms, (f m).home = m.home) {i : Spot Node} (hi : i.waits = false)
    {m : Message Node Payload} (hm : m ∈ t.box i) :
    ∃ m' ∈ pushes t.history, m'.messageId = m.messageId ∧ m'.home = m.home := by
  have hbefore {m : Message Node Payload} (hm : m ∈ pushes s.history) : m ∈ pushes t.history :=
    hb.pushes.symm.subset (List.mem_append_right _ hm)
  cases hs.mem_cases hm with
  | inl harrived =>
    obtain ⟨m₁, hm₁, rfl, rfl⟩ := harrived
    rw [hs.key_eq m₁ hm₁, hhome m₁ hm₁]
    cases hsrc : src with
    | none => simp [(hb.waits m₁ hm₁).mpr hsrc] at hi
    | some j =>
      by_cases hj : j.waits = true
      · refine ⟨m₁, hb.pushes.symm.subset (List.mem_append_left _ ?_), rfl, rfl⟩
        rw [hsrc, Option.any_some, if_pos hj]
        exact hm₁
      · obtain ⟨m', hm', he⟩ := h.origin j (Bool.eq_false_iff.mpr hj) m₁ (hs.mem_src hsrc hm₁)
        exact ⟨m', hbefore hm', he⟩
  | inr hold =>
    obtain ⟨m', hm', he⟩ := h.origin i hi m hold
    exact ⟨m', hbefore hm', he⟩

theorem Kept.ship_acknowledging (h : Kept s place) (hb : Books s t ms src dest)
    (hnodup : (ms.map Message.messageId).Nodup) (hsrc : ∀ m ∈ ms, place m.messageId = src)
    {n : Node} {m : Message Node Payload} (hm : .acknowledging n m ∈ t.history) :
    ∃ i, redirect Message.messageId ms dest place m.messageId = some i ∧ i.settled = true := by
  cases redirect_cases Message.messageId ms dest place m.messageId with
  | inl hshipped =>
    obtain ⟨m', hm', hid, hr⟩ := hshipped
    refine ⟨dest m', hr, ?_⟩
    cases hb.acknowledging n m hm with
    | inl hold =>
      obtain ⟨i, hi, hset⟩ := h.acknowledging n m hold
      rw [← hid, hsrc m' hm'] at hi
      exact hb.settled (by rw [hi, Option.any_some, hset]) m' hm'
    | inr hnew =>
      obtain ⟨m'', hm'', hid'', hset⟩ := hnew
      have he : m'' = m' := List.inj_on_of_nodup_map hnodup hm'' hm' (hid''.trans hid.symm)
      exact he ▸ hset
  | inr hother =>
    rw [hother.2]
    cases hb.acknowledging n m hm with
    | inl hold => exact h.acknowledging n m hold
    | inr hnew =>
      obtain ⟨m'', hm'', hid'', -⟩ := hnew
      exact absurd hid'' (hother.1 m'' hm'')

theorem Kept.ship (h : Kept s place) (hs : Shipment Message.messageId s.box t.box ms src dest f)
    (hb : Books s t ms src dest) (hsrc : ∀ m ∈ ms, place m.messageId = src)
    (hhome : ∀ m ∈ ms, (f m).home = m.home) :
    Kept t (redirect Message.messageId ms dest place) where
  custody := h.custody.ship hs hsrc
  keyed := hb.keyed
  created messageId i hi := by
    cases redirect_cases Message.messageId ms dest place messageId with
    | inl hshipped =>
      obtain ⟨m, hm, rfl, -⟩ := hshipped
      exact hb.created.2 m hm
    | inr hother => exact hb.created.1 (h.created _ i (hother.2 ▸ hi))
  filed i home hi m hm := by
    cases hs.mem_cases hm with
    | inl harrived =>
      obtain ⟨m', hm', rfl, rfl⟩ := harrived
      rw [hhome m' hm']
      exact hb.filed m' hm' home hi
    | inr hold => exact h.filed i home hi m hold
  once := h.ship_once hb hs.nodup hsrc
  pushed _ hm := h.ship_pushed hb hsrc hm
  origin _ hi _ hm := h.ship_origin hs hb hhome hi hm
  acknowledging _ _ hm := h.ship_acknowledging hb hs.nodup hsrc hm

end Ship

section Move
variable {n : Node} {y : QueueNode Node Payload} {r : Redis Node Payload}
  {evs : List (Event Node Payload)} {out inn : Spot Node → List (Message Node Payload)}

/-- What a step of `n` does to the boxes, told apart by where they are. -/
theorem boxes_move
    (hnode : ∀ sh, ∃ rest, ((s.nodes n).shelf sh).Perm (out (.node n sh) ++ rest) ∧
      (y.shelf sh).Perm (inn (.node n sh) ++ rest))
    (hother : ∀ m sh, m ≠ n → out (.node m sh) = [] ∧ inn (.node m sh) = [])
    (hqueue : ∀ home, ∃ rest, (s.redis.queue home).Perm (out (.queue home) ++ rest) ∧
      (r.queue home).Perm (inn (.queue home) ++ rest))
    (hdead : ∀ home, ∃ rest, (s.redis.dlq home).Perm (out (.dead home) ++ rest) ∧
      (r.dlq home).Perm (inn (.dead home) ++ rest))
    (hdone : out .done = [] ∧ inn .done = acknowledgedMessages evs) (i : Spot Node) :
    ∃ rest, (s.box i).Perm (out i ++ rest) ∧ ((s.move n y r evs).box i).Perm (inn i ++ rest) := by
  cases i with
  | node m sh =>
    by_cases hm : m = n
    · subst hm
      simpa only [Service.box, move_self] using hnode sh
    · simp only [Service.box, move_of_ne _ _ _ _ hm, (hother m sh hm).1, (hother m sh hm).2,
        List.nil_append]
      exact ⟨_, .refl _, .refl _⟩
  | queue home => exact hqueue home
  | dead home => exact hdead home
  | done =>
    rw [hdone.1, hdone.2]
    refine ⟨_, .refl _, ?_⟩
    simp only [Service.box, move_history, acknowledgedMessages, List.filterMap_append]
    exact .refl _

end Move

section Single
variable {place : String → Option (Spot Node)}

theorem Kept.shipOne (h : Kept s place) (src : Option (Spot Node)) (j : Spot Node)
    (m m' : Message Node Payload) (hid : m'.messageId = m.messageId)
    (hhome : m'.home = m.home) (hne : src ≠ some j) (hsrc : place m.messageId = src)
    (hbox : ∀ i, ∃ rest, (s.box i).Perm ((if src = some i then [m] else []) ++ rest) ∧
      (t.box i).Perm ((if j = i then [m'] else []) ++ rest))
    (hb : Books s t [m] src fun _ => j) :
    Kept t (redirect Message.messageId [m] (fun _ => j) place) := by
  have hs : Shipment Message.messageId s.box t.box [m] src (fun _ => j) fun _ => m' := by
    refine ⟨by simp, by simpa using hid, by simpa using hne, fun i => ?_⟩
    obtain ⟨rest, hout, hinn⟩ := hbox i
    refine ⟨rest, hout, ?_⟩
    by_cases hj : j = i
    · simpa [hj] using hinn
    · simpa [hj] using hinn
  exact h.ship hs hb (by simpa using hsrc) (by simpa using hhome)

end Single

section Node
variable {x : QueueNode Node Payload}
omit [DecidableEq Node]

theorem QueueNode.Keyed.messageId_eq (h : x.Keyed) {messageId : String} {msg : Message Node Payload}
    (hm : x.inFlight.get? messageId = some msg) : msg.messageId = messageId :=
  h _ (Dict.get?_eq_some.mp hm)

theorem QueueNode.Keyed.untrack (h : x.Keyed) (messageId : String) : (x.untrack messageId).Keyed :=
  fun e he => h e (List.mem_of_mem_filter he)

theorem QueueNode.Keyed.track (h : x.Keyed) {msg : Message Node Payload}
    (hm : x.inFlight.get? msg.messageId = none) : (x.track msg).Keyed := by
  intro e he
  rw [QueueNode.track, Dict.entries_set_of_none hm] at he
  cases List.mem_append.mp he with
  | inl hold => exact h e hold
  | inr hnew =>
    cases List.mem_singleton.mp hnew
    rfl

theorem QueueNode.Keyed.poll (h : x.Keyed) (topic : String) (batchSize : Nat)
    (messages : List (Message Node Payload)) (partitions : List Int) :
    (x.poll topic batchSize messages partitions).1.Keyed := by
  cases partitions with
  | nil => exact h
  | cons p rest =>
    simp only [QueueNode.poll]
    split
    · exact h
    · exact h

theorem negativeAcknowledge_eq_some {messageId : String} {timedOut : Option (List String)}
    {y : QueueNode Node Payload} (h : x.negativeAcknowledge messageId timedOut = some y) :
    ∃ msg, x.inFlight.get? messageId = some msg ∧ y = (x.untrack messageId).suspend
      (.requeue { msg with retryCount := msg.retryCount + 1 } timedOut) := by
  obtain ⟨msg, hm, hy⟩ := Option.map_eq_some_iff.mp h
  exact ⟨msg, hm, hy.symm⟩

end Node

omit [DecidableEq Node] in
theorem flatMap_assign (es : List (Int × List (Message Node Payload))) (p : Int)
    (m : Message Node Payload) :
    ((Dict.assign es p ((Dict.lookup es p).getD [] ++ [m])).flatMap Prod.snd).Perm
      (es.flatMap Prod.snd ++ [m]) := by
  induction es with
  | nil => exact .refl _
  | cons e es ih =>
    obtain ⟨p', ms⟩ := e
    by_cases hp : p' = p
    · simp only [Dict.assign, Dict.lookup, if_pos hp, Option.getD_some, List.flatMap_cons,
        List.append_assoc]
      exact List.perm_append_comm.append_left ms
    · simp only [Dict.assign, Dict.lookup, if_neg hp, List.flatMap_cons, List.append_assoc]
      exact ih.append_left ms

omit [DecidableEq Node] in
theorem pipeline_perm (ms : List (Message Node Payload)) : (pipeline ms).Perm ms := by
  have hgroup (d : Dict Int (List (Message Node Payload))) :
      ((ms.foldl (fun d m => d.set m.partition ((d.get? m.partition).getD [] ++ [m])) d).entries
        |>.flatMap Prod.snd).Perm (d.entries.flatMap Prod.snd ++ ms) := by
    induction ms generalizing d with
    | nil => rw [List.append_nil, List.foldl_nil]
    | cons m ms ih =>
      rw [List.foldl_cons]
      refine (ih _).trans ?_
      have hfiled := (flatMap_assign d.entries m.partition m).append_right ms
      rw [List.append_assoc, List.singleton_append] at hfiled
      exact hfiled
  exact hgroup ∅

structure Redis.Gains (r r' : Redis Node Payload) (j : Spot Node) (m : Message Node Payload) :
    Prop where
  queue : ∀ home, (r'.queue home).Perm ((if j = .queue home then [m] else []) ++ r.queue home)
  dead : ∀ home, (r'.dlq home).Perm ((if j = .dead home then [m] else []) ++ r.dlq home)

theorem Redis.gains_done (r : Redis Node Payload) (m : Message Node Payload) :
    r.Gains r .done m where
  queue home := by simp
  dead home := by simp

theorem Redis.gains_commit (r : Redis Node Payload) (m : Message Node Payload) :
    r.Gains (r.commit m) .done m where
  queue := (r.gains_done m).queue
  dead := (r.gains_done m).dead

theorem Redis.gains_bury (r : Redis Node Payload) (m : Message Node Payload) :
    r.Gains (r.bury m) (.dead m.home) m where
  queue home := by simp [Redis.bury]
  dead home := by
    rw [dlq_bury]
    simpa using List.perm_append_comm

theorem Redis.gains_lpush (r : Redis Node Payload) (m : Message Node Payload) :
    r.Gains (r.lpush m) (.queue m.home) m where
  queue home := by
    rw [queue_lpush]
    simp
  dead home := by simp [Redis.lpush]

section Step
variable {place : String → Option (Spot Node)} (h : Kept s place) {n : Node}
include h

theorem Kept.keyed_move {y : QueueNode Node Payload} (hy : y.Keyed) (r : Redis Node Payload)
    (evs : List (Event Node Payload)) (m : Node) : ((s.move n y r evs).nodes m).Keyed := by
  by_cases hm : m = n
  · subst hm
    rwa [move_self]
  · rw [move_of_ne _ _ _ _ hm]
    exact h.keyed m

theorem Kept.created_of_mem {i : Spot Node} {m : Message Node Payload} (hm : m ∈ s.box i) :
    m.messageId ∈ createdIds s.history :=
  h.created _ _ (h.custody.place_of_mem hm)

theorem Kept.free_of_mem {i : Spot Node} {m : Message Node Payload} (hm : m ∈ s.box i)
    (hi : i ≠ .node n .inFlight) : (s.nodes n).inFlight.get? m.messageId = none := by
  cases hf : (s.nodes n).inFlight.get? m.messageId with
  | none => rfl
  | some m' =>
    have hm' : m' ∈ s.box (.node n .inFlight) :=
      List.mem_append_left _ (List.mem_map.mpr ⟨_, Dict.get?_eq_some.mp hf, rfl⟩)
    have hplace := h.custody.place_of_mem hm'
    rw [(h.keyed n).messageId_eq hf, h.custody.place_of_mem hm] at hplace
    exact absurd (Option.some.inj hplace) hi

theorem Kept.books {ms : List (Message Node Payload)} {src : Option (Spot Node)}
    {dest : Message Node Payload → Spot Node} {y : QueueNode Node Payload}
    {r : Redis Node Payload} {evs : List (Event Node Payload)} (hkeyed : y.Keyed)
    (hcreated : ∀ m ∈ ms, m.messageId ∈ createdIds evs ∨ m.messageId ∈ createdIds s.history)
    (hfiled : ∀ m ∈ ms, ∀ home, (dest m).home? = some home → m.home = home)
    (hwaits : ∀ m ∈ ms, (dest m).waits = true ↔ src = none)
    (hpush : (pushes evs).Perm (if src.any Spot.waits then ms else []))
    (hsettled : src.any Spot.settled = true → ∀ m ∈ ms, (dest m).settled = true)
    (hack : ∀ m msg, .acknowledging m msg ∈ evs → msg ∈ ms ∧ (dest msg).settled = true) :
    Books s (s.move n y r evs) ms src dest where
  keyed := h.keyed_move hkeyed r evs
  created := by
    rw [move_history, createdIds_append]
    exact ⟨List.subset_append_right _ _, fun m hm => List.mem_append.mpr (hcreated m hm)⟩
  filed := hfiled
  waits := hwaits
  pushes := by
    rw [move_history, pushes_append]
    exact hpush.append_right _
  settled := hsettled
  acknowledging m msg hm := by
    cases List.mem_append.mp hm with
    | inl hnew => exact .inr ⟨msg, (hack m msg hnew).1, rfl, (hack m msg hnew).2⟩
    | inr hold => exact .inl hold

theorem Kept.idle {y : QueueNode Node Payload} {r : Redis Node Payload}
    {evs : List (Event Node Payload)} (hshelf : ∀ sh, (y.shelf sh).Perm ((s.nodes n).shelf sh))
    (hkeyed : y.Keyed) (hqueue : r.queue = s.redis.queue) (hdead : r.dlq = s.redis.dlq)
    (hpush : pushes evs = []) (hdone : acknowledgedMessages evs = [])
    (hack : ∀ m msg, .acknowledging m msg ∉ evs) : ∃ place, Kept (s.move n y r evs) place := by
  have hs : Shipment Message.messageId s.box (s.move n y r evs).box [] none (fun _ => .done) id := by
    refine ⟨List.nodup_nil, nofun, nofun, ?_⟩
    refine boxes_move (fun sh => ⟨_, .refl _, hshelf sh⟩) (by simp)
      (fun home => ⟨_, .refl _, ?_⟩) (fun home => ⟨_, .refl _, ?_⟩) (by simp [hdone])
    · simp [hqueue]
    · simp [hdead]
  have hb : Books s (s.move n y r evs) [] none fun _ => .done :=
    h.books hkeyed nofun nofun nofun (by simp [hpush]) nofun
      fun m msg hm => absurd hm (hack m msg)
  exact ⟨_, h.ship hs hb nofun nofun⟩

theorem Kept.place_of_fresh {messageId : String} (hfresh : messageId ∉ createdIds s.history) :
    place messageId = none := by
  cases hp : place messageId with
  | none => rfl
  | some i => exact absurd (h.created _ _ hp) hfresh

theorem Kept.accept (ms : List (Message Node Payload)) {call : Call Node Payload}
    (hwaiting : (call.shelf .waiting).Perm ms) (hother : ∀ sh, sh ≠ .waiting → call.shelf sh = [])
    (hnodup : (ms.map Message.messageId).Nodup)
    (hfresh : ∀ m ∈ ms, m.messageId ∉ createdIds s.history) :
    ∃ place, Kept (s.move n ((s.nodes n).suspend call) s.redis
      (ms.map fun m => .created m.messageId)) place := by
  have hevs : createdIds (ms.map fun m => (.created m.messageId : Event Node Payload)) =
      ms.map Message.messageId := by
    simp [createdIds]
  have hb : Books s (s.move n ((s.nodes n).suspend call) s.redis
      (ms.map fun m => .created m.messageId)) ms none fun _ => .node n .waiting :=
    h.books (h.keyed n) (fun m hm => .inl (hevs ▸ List.mem_map_of_mem hm)) (by simp [Spot.home?])
      (by simp [Spot.waits]) (by simp [pushes]) nofun (by simp)
  have hs : Shipment Message.messageId s.box (s.move n ((s.nodes n).suspend call) s.redis
      (ms.map fun m => .created m.messageId)).box ms none (fun _ => .node n .waiting) id := by
    refine ⟨hnodup, fun _ _ => rfl, by simp, ?_⟩
    refine boxes_move (fun sh => ⟨(s.nodes n).shelf sh, .refl _, ?_⟩) ?_
      (fun home => ⟨_, .refl _, by simp⟩) (fun home => ⟨_, .refl _, by simp⟩)
      (by simp [acknowledgedMessages])
    · refine (shelf_suspend _ call sh).trans (List.Perm.append_right _ ?_)
      by_cases hs : sh = .waiting
      · simpa [hs] using hwaiting
      · simp [hother sh hs, Ne.symm hs]
    · intro m sh hm
      simp [Ne.symm hm]
  exact ⟨_, h.ship hs hb (fun m hm => h.place_of_fresh (hfresh m hm)) fun _ _ => rfl⟩

theorem Kept.push (ms : List (Message Node Payload)) {k : Nat} {call : Call Node Payload}
    {y : QueueNode Node Payload} {evs : List (Event Node Payload)}
    (hk : (s.nodes n).calls[k]? = some call) (hwaiting : call.shelf .waiting = ms)
    (hother : ∀ sh, sh ≠ .waiting → call.shelf sh = [])
    (hshelf : ∀ sh, (y.shelf sh).Perm (((s.nodes n).wake k).shelf sh)) (hkeyed : y.Keyed)
    (hpush : (pushes evs).Perm ms) (hdone : acknowledgedMessages evs = [])
    (hack : ∀ m msg, .acknowledging m msg ∉ evs) :
    ∃ place, Kept (s.move n y (ms.foldl Redis.rpush s.redis) evs) place := by
  have hwake := shelf_wake (s.nodes n) hk
  have hmem {m : Message Node Payload} (hm : m ∈ ms) : m ∈ s.box (.node n .waiting) := by
    refine (hwake .waiting).symm.subset (List.mem_append_left _ ?_)
    rwa [hwaiting]
  have hnodup : (ms.map Message.messageId).Nodup := by
    have hn := ((hwake .waiting).map Message.messageId).nodup_iff.mp
      (h.custody.nodup (.node n .waiting))
    rw [List.map_append, hwaiting] at hn
    exact (List.nodup_append.mp hn).1
  have hb : Books s (s.move n y (ms.foldl Redis.rpush s.redis) evs) ms
      (some (.node n .waiting)) fun m => .queue m.home :=
    h.books hkeyed (fun m hm => .inr (h.created_of_mem (hmem hm))) (by simp [Spot.home?])
      (by simp [Spot.waits]) (by simpa [Spot.waits] using hpush) (by simp [Spot.settled])
      fun m msg hm => absurd hm (hack m msg)
  have hs : Shipment Message.messageId s.box
      (s.move n y (ms.foldl Redis.rpush s.redis) evs).box ms (some (.node n .waiting))
      (fun m => .queue m.home) id := by
    refine ⟨hnodup, fun _ _ => rfl, by simp, ?_⟩
    refine boxes_move (fun sh => ⟨((s.nodes n).wake k).shelf sh, (hwake sh).trans ?_, ?_⟩) ?_
      (fun home => ⟨_, .refl _, ?_⟩) (fun home => ⟨_, .refl _, ?_⟩) (by simp [hdone])
    · by_cases hs : sh = .waiting
      · simp [hs, hwaiting]
      · simp [hother sh hs, Ne.symm hs]
    · simpa using hshelf sh
    · intro m sh hm
      simp [Ne.symm hm]
    · rw [queue_foldl_rpush]
      simpa using List.perm_append_comm
    · simp [dlq_foldl_rpush]
  exact ⟨_, h.ship hs hb (fun m hm => h.custody.place_of_mem (hmem hm)) fun _ _ => rfl⟩

theorem Kept.pass (a b : Shelf) (m m' : Message Node Payload) {y : QueueNode Node Payload}
    {evs : List (Event Node Payload)} (hab : a ≠ b) (ha : a ≠ .waiting ∧ a ≠ .committing)
    (hb : b ≠ .waiting) (hid : m'.messageId = m.messageId) (hhome : m'.home = m.home)
    (hshelf : ∀ sh, ∃ rest, ((s.nodes n).shelf sh).Perm ((if sh = a then [m] else []) ++ rest) ∧
      (y.shelf sh).Perm ((if sh = b then [m'] else []) ++ rest))
    (hkeyed : y.Keyed) (hpush : pushes evs = []) (hdone : acknowledgedMessages evs = [])
    (hack : ∀ n' msg, .acknowledging n' msg ∈ evs → msg = m ∧ b = .committing) :
    ∃ place, Kept (s.move n y s.redis evs) place := by
  have hmem : m ∈ s.box (.node n a) := by
    obtain ⟨rest, hfrom, -⟩ := hshelf a
    exact hfrom.symm.subset (by simp)
  refine ⟨_, h.shipOne (some (.node n a)) (.node n b) m m' hid hhome
    (by simpa using hab) (h.custody.place_of_mem hmem) ?_ (h.books hkeyed ?_ ?_ ?_ ?_ ?_ ?_)⟩
  · refine boxes_move (fun sh => ?_) ?_ (fun home => ⟨_, .refl _, by simp⟩)
      (fun home => ⟨_, .refl _, by simp⟩) (by simp [hdone])
    · simpa [eq_comm] using hshelf sh
    · intro m sh hm
      simp [Ne.symm hm]
  · simpa using .inr (h.created_of_mem hmem)
  · simp [Spot.home?]
  · cases b <;> simp_all [Spot.waits]
  · cases a <;> simp_all [Spot.waits]
  · cases a <;> simp_all [Spot.settled]
  · intro n' msg hm
    obtain ⟨rfl, rfl⟩ := hack n' msg hm
    simp [Spot.settled]

theorem Kept.leave (a : Shelf) (j : Spot Node) (m : Message Node Payload)
    {y : QueueNode Node Payload} {r : Redis Node Payload} {evs : List (Event Node Payload)}
    (ha : a ≠ .waiting) (hj : ∀ m sh, j ≠ .node m sh)
    (hfiled : ∀ home, j.home? = some home → m.home = home) (hsettle : a = .committing → j = .done)
    (hshelf : ∀ sh, ((s.nodes n).shelf sh).Perm ((if sh = a then [m] else []) ++ y.shelf sh))
    (hgains : s.redis.Gains r j m)
    (hdone : acknowledgedMessages evs = if j = .done then [m] else []) (hkeyed : y.Keyed)
    (hpush : pushes evs = []) (hack : ∀ n' msg, .acknowledging n' msg ∉ evs) :
    ∃ place, Kept (s.move n y r evs) place := by
  have hmem : m ∈ s.box (.node n a) := (hshelf a).symm.subset (by simp)
  refine ⟨_, h.shipOne (some (.node n a)) j m m rfl rfl
    (by simpa using (hj n a).symm) (h.custody.place_of_mem hmem) ?_
    (h.books hkeyed ?_ ?_ ?_ ?_ ?_ ?_)⟩
  · refine boxes_move (fun sh => ⟨y.shelf sh, ?_, ?_⟩) ?_ (fun home => ⟨_, .refl _, ?_⟩)
      (fun home => ⟨_, .refl _, ?_⟩) ?_
    · simpa [eq_comm] using hshelf sh
    · simp [hj]
    · intro m sh hm
      simp [Ne.symm hm, hj]
    · simpa using hgains.queue home
    · simpa using hgains.dead home
    · simpa using hdone.symm
  · simpa using .inr (h.created_of_mem hmem)
  · simpa using hfiled
  · have hw : j.waits = false := by
      cases j with
      | node m sh => exact absurd rfl (hj m sh)
      | _ => rfl
    simp [hw]
  · cases a <;> simp_all [Spot.waits]
  · cases a <;> simp_all [Spot.settled]
  · intro n' msg hm
    exact absurd hm (hack n' msg)

theorem Kept.take (b : Shelf) {y : QueueNode Node Payload} {home : TopicPartition}
    {m m' : Message Node Payload} {evs : List (Event Node Payload)} (hb : b ≠ .waiting)
    (hq : s.redis.queue home = m :: (s.redis.queue home).tail) (hid : m'.messageId = m.messageId)
    (hhome : m'.home = m.home)
    (hshelf : ∀ sh, (y.shelf sh).Perm ((if sh = b then [m'] else []) ++
      (s.nodes n).shelf sh))
    (hkeyed : y.Keyed) (hpush : pushes evs = []) (hdone : acknowledgedMessages evs = [])
    (hack : ∀ n' msg, .acknowledging n' msg ∉ evs) :
    ∃ place, Kept (s.move n y (s.redis.pop home) evs) place := by
  have hmem : m ∈ s.box (.queue home) := by
    rw [Service.box, hq]
    exact List.mem_cons_self
  refine ⟨_, h.shipOne (some (.queue home)) (.node n b) m m' hid hhome nofun
    (h.custody.place_of_mem hmem) ?_ (h.books hkeyed ?_ ?_ ?_ ?_ ?_ ?_)⟩
  · refine boxes_move (fun sh => ⟨(s.nodes n).shelf sh, by simp, ?_⟩) ?_ (fun home' => ?_)
      (fun home => ⟨_, .refl _, by simp [Redis.pop]⟩) (by simp [hdone])
    · simpa [eq_comm] using hshelf sh
    · intro m sh hm
      simp [Ne.symm hm]
    · rw [queue_pop]
      by_cases hh : home' = home
      · subst hh
        refine ⟨(s.redis.queue home').tail, ?_, by simp⟩
        rw [if_pos rfl, List.singleton_append, ← hq]
      · exact ⟨s.redis.queue home', by simp [Ne.symm hh], by simp [hh]⟩
  · simpa using .inr (h.created_of_mem hmem)
  · simp [Spot.home?]
  · cases b <;> simp_all [Spot.waits]
  · simp [Spot.waits, hpush]
  · simp [Spot.settled]
  · intro n' msg hm
    exact absurd hm (hack n' msg)

theorem Kept.acknowledge {messageId : String} {m : Message Node Payload}
    (hm : (s.nodes n).inFlight.get? messageId = some m) :
    ∃ place, Kept (s.move n (((s.nodes n).untrack messageId).suspend (.set m)) s.redis
      [.acknowledging n m]) place := by
  refine h.pass .inFlight .committing m m (by decide) (by decide)
    (by decide) rfl rfl (fun sh => ⟨((s.nodes n).untrack messageId).shelf sh,
      shelf_untrack _ hm sh, ?_⟩) ((h.keyed n).untrack messageId) rfl rfl (by simp)
  refine (shelf_suspend _ _ sh).trans (List.Perm.append_right _ ?_)
  cases sh <;> exact .refl _

theorem Kept.negativeAcknowledge {messageId : String} {timedOut : Option (List String)}
    {y : QueueNode Node Payload}
    (hy : (s.nodes n).negativeAcknowledge messageId timedOut = some y) :
    ∃ place, Kept (s.move n y s.redis []) place := by
  obtain ⟨m, hm, rfl⟩ := negativeAcknowledge_eq_some hy
  refine h.pass .inFlight .carried m { m with retryCount := m.retryCount + 1 } (by decide) (by decide)
    (by decide) rfl rfl (fun sh => ⟨((s.nodes n).untrack messageId).shelf sh,
      shelf_untrack _ hm sh, ?_⟩) ((h.keyed n).untrack messageId) rfl rfl (by simp)
  refine (shelf_suspend _ _ sh).trans (List.Perm.append_right _ ?_)
  cases sh <;> exact .refl _

theorem Kept.checkTimedOut (timedOut : List String) :
    ∃ place, Kept (s.move n ((s.nodes n).checkTimedOut timedOut) s.redis []) place := by
  induction timedOut with
  | nil => exact h.idle (fun _ => .refl _) (h.keyed n) rfl rfl rfl rfl (by simp)
  | cons messageId timedOut ih =>
    simp only [QueueNode.checkTimedOut]
    split
    · rename_i y hy
      exact h.negativeAcknowledge hy
    · exact ih

end Step

theorem move_move {n : Node} (y z : QueueNode Node Payload) (r r' : Redis Node Payload)
    (evs evs' : List (Event Node Payload)) :
    (s.move n y r evs).move n z r' evs' = s.move n z r' (evs' ++ evs) := by
  simp [Service.move]

section Returns
variable {n : Node} (o : Option (List (Message Node Payload)))
omit [DecidableEq Node]

theorem pushes_returns : pushes (returns n o) = [] := by
  cases o <;> rfl

theorem acknowledgedMessages_returns : acknowledgedMessages (returns n o) = [] := by
  cases o <;> rfl

theorem acknowledging_not_mem_returns (n' : Node) (msg : Message Node Payload) :
    .acknowledging n' msg ∉ returns n o := by
  cases o <;> simp [returns]

end Returns

section Resume
variable {place : String → Option (Spot Node)} (h : Kept s place) {n : Node} {k : Nat}
include h

omit h [DecidableEq Node] in
theorem shelf_wake_idle {call : Call Node Payload} (hk : (s.nodes n).calls[k]? = some call)
    (hcall : ∀ sh, call.shelf sh = []) (sh : Shelf) :
    (((s.nodes n).wake k).shelf sh).Perm ((s.nodes n).shelf sh) := by
  have hwake := shelf_wake (s.nodes n) hk sh
  rw [hcall, List.nil_append] at hwake
  exact hwake.symm

theorem Kept.lpop {topic : String} {p : Int} {rest : List Int} {batchSize : Nat}
    {messages : List (Message Node Payload)} {raw : Message Node Payload}
    (hk : (s.nodes n).calls[k]? = some (.lpop topic p rest batchSize messages))
    (hq : s.redis.queue (topic, p) = raw :: (s.redis.queue (topic, p)).tail)
    {r : QueueNode Node Payload × Option (List (Message Node Payload))}
    (hr : r = (((s.nodes n).wake k).track { raw with partition := p }).poll topic batchSize
      (messages ++ [{ raw with partition := p }]) rest) :
    ∃ place, Kept (s.move n r.1 (s.redis.pop (topic, p))
      (returns n r.2 ++ [.taken n { raw with partition := p }])) place := by
  have hraw : raw ∈ s.box (.queue (topic, p)) := by
    rw [Service.box, hq]
    exact List.mem_cons_self
  have hhome : raw.home = (topic, p) := h.filed (.queue (topic, p)) _ rfl raw hraw
  have hfree : ((s.nodes n).wake k).inFlight.get? raw.messageId = none := h.free_of_mem hraw nofun
  have hsame : { raw with partition := p } = raw := by
    rw [← (Prod.mk.inj hhome).2]
  have hkeyed : ((s.nodes n).wake k).Keyed := h.keyed n
  rw [hsame] at hr ⊢
  subst hr
  refine h.take .inFlight nofun hq rfl rfl (fun sh => ?_) ((hkeyed.track hfree).poll _ _ _ _) ?_ ?_ ?_
  · refine (shelf_poll _ _ _ _ _ sh).trans ((shelf_track _ hfree sh).trans ?_)
    exact (shelf_wake_idle hk (fun sh => by cases sh <;> rfl) sh).append_left _
  · rw [pushes_append, pushes_returns]
    rfl
  · rw [acknowledgedMessages_append, acknowledgedMessages_returns]
    rfl
  · intro n' msg hm
    cases List.mem_append.mp hm with
    | inl hm => exact acknowledging_not_mem_returns _ n' msg hm
    | inr hm => simp at hm

theorem Kept.pushAgain (j : Spot Node) {msg : Message Node Payload}
    {timedOut : Option (List String)} {r : Redis Node Payload}
    (hk : (s.nodes n).calls[k]? = some (.requeue msg timedOut)) (hj : j.home? = some msg.home)
    (hgains : s.redis.Gains r j msg) :
    ∃ place, Kept (s.move n ((s.nodes n).wake k) r []) place := by
  refine h.leave .carried j msg (by decide) ?_ ?_ nofun (fun sh => ?_)
    hgains ?_ (h.keyed n) rfl (by simp)
  · rintro m sh rfl
    cases hj
  · intro home hhome
    exact Option.some.inj (hj.symm.trans hhome)
  · have hwake := shelf_wake (s.nodes n) hk sh
    cases sh <;> exact hwake
  · rw [if_neg]
    · rfl
    · intro heq
      subst heq
      cases hj

theorem Kept.requeue (j : Spot Node) {msg : Message Node Payload}
    {timedOut : Option (List String)} {r : Redis Node Payload}
    (hk : (s.nodes n).calls[k]? = some (.requeue msg timedOut)) (hj : j.home? = some msg.home)
    (hgains : s.redis.Gains r j msg) :
    ∃ place, Kept (s.move n (((s.nodes n).wake k).checkTimedOut (timedOut.getD [])) r [])
      place := by
  obtain ⟨place', h'⟩ := h.pushAgain j hk hj hgains
  have hchecked := h'.checkTimedOut (n := n) (timedOut.getD [])
  rwa [move_self, move_move, move_redis, List.append_nil] at hchecked

end Resume

theorem Kept.step {place : String → Option (Spot Node)} (h : Kept s place)
    {a : Action Node Payload} (hs : (queue cfg).step s a = some t) : ∃ place, Kept t place := by
  cases step_cases hs with
  | produce n topic payload key headers messageId timestamp hfresh =>
    unfold QueueNode.produce
    split
    · exact h.idle (fun _ => .refl _) (h.keyed n) rfl rfl rfl rfl (by simp)
    · exact h.accept [cfg.message n topic payload key headers messageId timestamp]
        (.refl _) (fun sh hsh => by cases sh <;> first | rfl | exact absurd rfl hsh) (by simp)
        (by simpa [Config.message] using hfresh)
  | produceBatch n topic items hnodup hfresh =>
    exact h.accept _ (pipeline_perm _)
      (fun sh hsh => by cases sh <;> first | rfl | exact absurd rfl hsh) hnodup hfresh
  | consume n topic groupId consumerId partitions batchSize =>
    have hkeyed : ((s.nodes n).joinGroup groupId topic consumerId).Keyed := h.keyed n
    exact h.idle (fun sh => shelf_poll _ _ _ _ _ sh) (hkeyed.poll _ _ _ _) rfl rfl
      (pushes_returns _) (acknowledgedMessages_returns _) (acknowledging_not_mem_returns _)
  | acknowledge n messageId msg hm => exact h.acknowledge hm
  | acknowledgeUnknown n messageId => exact ⟨place, h⟩
  | negativeAcknowledge n messageId y hy => exact h.negativeAcknowledge hy
  | negativeAcknowledgeUnknown n messageId => exact ⟨place, h⟩
  | checkTimeouts n now => exact h.checkTimedOut _
  | rpush n k msg hk =>
    exact h.push [msg] hk rfl
      (fun sh hsh => by cases sh <;> first | rfl | exact absurd rfl hsh)
      (fun sh => (shelf_suspend _ _ sh).trans (by cases sh <;> exact .refl _)) (h.keyed n)
      (.refl _) rfl (by simp)
  | incr n k msg hk =>
    exact h.idle (shelf_wake_idle hk fun sh => by cases sh <;> rfl) (h.keyed n) rfl rfl rfl rfl
      (by simp)
  | execute n k pipe hk =>
    refine h.push pipe hk rfl (fun sh hsh => by cases sh <;> first | rfl | exact absurd rfl hsh)
      (fun sh => .refl _) (h.keyed n) ?_ ?_ (by simp)
    · have hbatched : pushes (pipe.reverse.map Event.batched) = pipe.reverse := by
        simp [pushes]
      rw [hbatched]
      exact pipe.reverse_perm
    · simp [acknowledgedMessages]
  | lpopEmpty n k topic p rest batchSize messages hk =>
    have hkeyed : ((s.nodes n).wake k).Keyed := h.keyed n
    refine h.idle (fun sh => (shelf_poll _ _ _ _ _ sh).trans ?_) (hkeyed.poll _ _ _ _) rfl
      rfl (pushes_returns _) (acknowledgedMessages_returns _) (acknowledging_not_mem_returns _)
    exact shelf_wake_idle hk (fun sh => by cases sh <;> rfl) sh
  | lpop n k topic p rest batchSize messages raw hk hq r hr => exact h.lpop hk hq hr
  | set n k msg hk =>
    refine h.leave .committing .done msg (by decide) (by simp)
      (by simp [Spot.home?]) (fun _ => rfl) (fun sh => ?_) (s.redis.gains_commit msg) rfl
      (h.keyed n) rfl (by simp)
    have hwake := shelf_wake (s.nodes n) hk sh
    cases sh <;> exact hwake
  | bury n k msg timedOut hk hmax =>
    exact h.requeue (.dead msg.home) hk rfl (s.redis.gains_bury msg)
  | requeue n k msg timedOut hk hmax =>
    exact h.requeue (.queue msg.home) hk rfl (s.redis.gains_lpush msg)

theorem Kept.init : Kept (queue cfg).init fun _ => none where
  custody := .empty fun i => by
    cases i with
    | node n sh => cases sh <;> rfl
    | _ => rfl
  keyed := fun _ => nofun
  created := nofun
  filed i home hi := by
    cases i with
    | node n sh => cases hi
    | queue home => exact fun m hm => absurd hm List.not_mem_nil
    | dead home => exact fun m hm => absurd hm List.not_mem_nil
    | done => cases hi
  once := List.nodup_nil
  pushed := fun m hm => absurd hm List.not_mem_nil
  origin i _ m hm := by
    cases i with
    | node n sh => cases sh <;> cases hm
    | _ => cases hm
  acknowledging := fun n m hm => absurd hm List.not_mem_nil

theorem kept_reach (h : (queue cfg).Reachable s) : ∃ place, Kept s place :=
  h.invariant (I := fun s => ∃ place, Kept s place) ⟨_, .init⟩ fun _ _ _ _ hi _ hs => by
    obtain ⟨place, hk⟩ := hi
    exact hk.step hs

end DistSync.Queue
