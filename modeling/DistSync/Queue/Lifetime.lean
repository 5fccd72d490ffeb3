import DistSync.Queue.Redelivery

/-! The life of a message. It is pushed, and then delivered by one node after the other, each of
which gives it back or keeps it for good: a path of one automaton, at whose end the message is
where its list, its node or its tombstone says. -/
namespace DistSync.Queue
variable {Node Payload : Type} [DecidableEq Node] {cfg : Config Node Payload}
  {s t : Service Node Payload}

inductive Turn (Node : Type) where
  | pushed
  | delivered (n : Node)
  | nacked (n : Node)
  | requeued (n : Node)
  | buried (n : Node)
  | acknowledged (n : Node)
  | committed (n : Node)
deriving DecidableEq

/-- How far a message has come, and how often it was given back. -/
inductive Stage (Node : Type) where
  | unborn
  | listed (nacks : Nat)
  | inFlight (n : Node) (nacks : Nat)
  | carried (n : Node) (nacks : Nat)
  | committing (n : Node)
  | dead
  | done
deriving DecidableEq

/-- Only the node that delivered a message gives it back or acknowledges it; the `max_retries`-th
time it is given back it is buried. -/
def Stage.next (maxRetries : Nat) : Stage Node → Turn Node → Option (Stage Node)
  | .unborn, .pushed => some (.listed 0)
  | .listed nacks, .delivered n => some (.inFlight n nacks)
  | .inFlight n nacks, .nacked n' => if n' = n then some (.carried n (nacks + 1)) else none
  | .carried n nacks, .requeued n' =>
    if n' = n ∧ nacks < maxRetries then some (.listed nacks) else none
  | .carried n nacks, .buried n' => if n' = n ∧ nacks = maxRetries then some .dead else none
  | .inFlight n _, .acknowledged n' => if n' = n then some (.committing n) else none
  | .committing n, .committed n' => if n' = n then some .done else none
  | _, _ => none

def life (maxRetries : Nat) (messageId : String) :
    List (String × Turn Node) → Option (Stage Node)
  | [] => some .unborn
  | e :: turns =>
    if e.1 = messageId then (life maxRetries messageId turns).bind fun x => x.next maxRetries e.2
    else life maxRetries messageId turns

def QueueNode.givesBack (x : QueueNode Node Payload) (n : Node) (messageIds : List String) :
    List (String × Turn Node) :=
  (x.firstInFlight messageIds).toList.map fun messageId => (messageId, .nacked n)

def Service.turns (cfg : Config Node Payload) (s : Service Node Payload) :
    Action Node Payload → List (String × Turn Node)
  | .acknowledge n messageId =>
    ((s.nodes n).inFlight.get? messageId).toList.map fun msg => (msg.messageId, .acknowledged n)
  | .negativeAcknowledge n messageId => (s.nodes n).givesBack n [messageId]
  | .checkTimeouts n now => (s.nodes n).givesBack n ((s.nodes n).timedOut now)
  | .resume n k =>
    match (s.nodes n).calls[k]? with
    | some (.rpush msg) => [(msg.messageId, .pushed)]
    | some (.execute pipe) => pipe.reverse.map fun msg => (msg.messageId, .pushed)
    | some (.lpop topic p _ _ _) =>
      (s.redis.queue (topic, p)).head?.toList.map fun msg => (msg.messageId, .delivered n)
    | some (.set msg) => [(msg.messageId, .committed n)]
    | some (.requeue msg timedOut) =>
      (s.nodes n).givesBack n (timedOut.getD []) ++
        [(msg.messageId, if msg.retryCount ≥ cfg.maxRetries then .buried n else .requeued n)]
    | _ => []
  | _ => []

def livedQueue (cfg : Config Node Payload) :
    System (Service Node Payload × List (String × Turn Node)) (Action Node Payload) :=
  (queue cfg).watched id [] fun s turns a => some (s.turns cfg a ++ turns)

theorem lived_reachable (h : (queue cfg).Reachable s) :
    ∃ turns, (livedQueue cfg).Reachable (s, turns) :=
  h.watched

def Spot.Stages (maxRetries retryCount : Nat) (x : Stage Node) : Spot Node → Prop
  | .node _ .waiting => x = .unborn ∧ retryCount = 0
  | .queue _ => x = .listed retryCount ∧ retryCount < maxRetries
  | .node n .inFlight => x = .inFlight n retryCount ∧ retryCount < maxRetries
  | .node n .carried => x = .carried n retryCount ∧ retryCount ≤ maxRetries
  | .node n .committing => x = .committing n
  | .dead _ => x = .dead
  | .done => x = .done

/-- The life of each message is a path of the automaton, and leads to where it is. -/
structure Service.Lives (maxRetries : Nat) (s : Service Node Payload)
    (turns : List (String × Turn Node)) : Prop where
  placed : ∀ i, ∀ m ∈ s.box i, ∃ x, life maxRetries m.messageId turns = some x ∧
    i.Stages maxRetries m.retryCount x
  unpushed : ∀ messageId, messageId ∉ (pushes s.history).map Message.messageId →
    life maxRetries messageId turns = some .unborn

section Life
variable {maxRetries : Nat} {messageId : String} {turns evs : List (String × Turn Node)}

theorem life_cons_self (turn : Turn Node) : life maxRetries messageId ((messageId, turn) :: turns) =
    (life maxRetries messageId turns).bind fun x => x.next maxRetries turn := by
  rw [life, if_pos rfl]

theorem life_append_of_ne (h : ∀ e ∈ evs, e.1 ≠ messageId) :
    life maxRetries messageId (evs ++ turns) = life maxRetries messageId turns := by
  induction evs with
  | nil => rfl
  | cons e evs ih =>
    obtain ⟨he, hevs⟩ := List.forall_mem_cons.mp h
    rw [List.cons_append, life, if_neg he, ih hevs]

theorem life_pushed {messageIds : List String} (hn : messageIds.Nodup) (hm : messageId ∈ messageIds)
    (h : life maxRetries messageId turns = some .unborn) :
    life maxRetries messageId (messageIds.map (fun i => (i, .pushed)) ++ turns) =
      some (.listed 0) := by
  induction messageIds with
  | nil => cases hm
  | cons i messageIds ih =>
    obtain ⟨hi, hn⟩ := List.nodup_cons.mp hn
    rw [List.map_cons, List.cons_append]
    by_cases he : i = messageId
    · subst he
      have hrest : ∀ e ∈ messageIds.map (fun i => (i, (.pushed : Turn Node))), e.1 ≠ i := by
        intro e hmem
        obtain ⟨j, hj, rfl⟩ := List.mem_map.mp hmem
        exact fun he => hi (he ▸ hj)
      rw [life_cons_self, life_append_of_ne hrest, h]
      rfl
    · rw [life, if_neg he]
      exact ih hn ((List.mem_cons.mp hm).resolve_left (Ne.symm he))

end Life

section Rule
variable {maxRetries : Nat} {turns : List (String × Turn Node)}

theorem Service.Lives.ship {place : String → Option (Spot Node)} (h : s.Lives maxRetries turns)
    (evs : List (String × Turn Node)) (hk : Kept t place) (ms : List (Message Node Payload))
    (dest : Message Node Payload → Spot Node)
    (hbox : ∀ i, ∀ m ∈ t.box i, m ∈ s.box i ∨ m ∈ ms ∧ dest m = i)
    (hms : ∀ m ∈ ms, m ∈ t.box (dest m) ∧
      ∃ x, life maxRetries m.messageId (evs ++ turns) = some x ∧
        (dest m).Stages maxRetries m.retryCount x)
    (hevs : ∀ e ∈ evs, e.1 ∈ ms.map Message.messageId ∧
      e.1 ∈ (pushes t.history).map Message.messageId)
    (hpush : pushes s.history ⊆ pushes t.history) : t.Lives maxRetries (evs ++ turns) where
  placed i m hm := by
    by_cases hid : m.messageId ∈ ms.map Message.messageId
    · obtain ⟨m', hm', hid⟩ := List.mem_map.mp hid
      have hplace := hk.custody.place_of_mem (hms m' hm').1
      rw [hid, hk.custody.place_of_mem hm] at hplace
      -- there is one message with that identity, and it moved here
      have hi : i = dest m' := Option.some.inj hplace
      have heq : m = m' :=
        List.inj_on_of_nodup_map (hk.custody.nodup i) hm (hi ▸ (hms m' hm').1) hid.symm
      rw [hi, heq]
      exact (hms m' hm').2
    · have hold : m ∈ s.box i := (hbox i m hm).resolve_right
        fun hnew => hid (List.mem_map_of_mem hnew.1)
      have hne : ∀ e ∈ evs, e.1 ≠ m.messageId := fun e he hid' => hid (hid' ▸ (hevs e he).1)
      rw [life_append_of_ne hne]
      exact h.placed i m hold
  unpushed messageId hid := by
    have hne : ∀ e ∈ evs, e.1 ≠ messageId := fun e he hid' => hid (hid' ▸ (hevs e he).2)
    rw [life_append_of_ne hne]
    exact h.unpushed messageId fun hmem => hid (List.map_subset _ hpush hmem)

theorem Service.Lives.shipOne {place place' : String → Option (Spot Node)}
    (h : s.Lives maxRetries turns) (hkept : Kept s place) (hk : Kept t place') {i : Spot Node}
    {m : Message Node Payload} (hm : m ∈ s.box i) (hi : i.waits = false) (j : Spot Node)
    (m' : Message Node Payload) (hid : m'.messageId = m.messageId) (hm' : m' ∈ t.box j)
    (turn : Turn Node)
    (hnext : ∀ x, i.Stages maxRetries m.retryCount x →
      ∃ x', x.next maxRetries turn = some x' ∧ j.Stages maxRetries m'.retryCount x')
    (hbox : ∀ i, ∀ x ∈ t.box i, x ∈ s.box i ∨ x ∈ [m'] ∧ j = i)
    (hpush : pushes s.history ⊆ pushes t.history) :
    t.Lives maxRetries ((m.messageId, turn) :: turns) := by
  obtain ⟨x, hlife, hx⟩ := h.placed i m hm
  obtain ⟨x', hx', hj⟩ := hnext x hx
  obtain ⟨m₀, hm₀, hid₀, -⟩ := hkept.origin i hi m hm
  refine h.ship [(m.messageId, turn)] hk [m'] (fun _ => j) hbox (fun y hy => ?_)
    (fun e he => ?_) hpush
  · cases List.mem_singleton.mp hy
    refine ⟨hm', x', ?_, hj⟩
    rw [hid, List.singleton_append, life_cons_self, hlife, Option.bind_some, hx']
  · cases List.mem_singleton.mp he
    exact ⟨List.mem_singleton.mpr hid.symm, hid₀ ▸ List.mem_map_of_mem (hpush hm₀)⟩

end Rule

section Step
variable {maxRetries : Nat} {turns : List (String × Turn Node)} (h : s.Lives maxRetries turns)
  {n : Node}
include h

theorem Service.Lives.idle {y : QueueNode Node Payload} {r : Redis Node Payload}
    {evs : List (Event Node Payload)} (hk : ∃ place, Kept (s.move n y r evs) place)
    (hshelf : ∀ sh, (y.shelf sh).Perm ((s.nodes n).shelf sh)) (hqueue : r.queue = s.redis.queue)
    (hdead : r.dlq = s.redis.dlq) (hdone : acknowledgedMessages evs = []) :
    (s.move n y r evs).Lives maxRetries turns := by
  obtain ⟨place, hk⟩ := hk
  refine h.ship [] hk [] (fun _ => .done) (mem_box_move ?_ ?_ ?_ ?_) nofun nofun
    pushes_subset_move
  · exact fun sh m hm => .inl ((hshelf sh).subset hm)
  · exact fun home m hm => .inl (hqueue ▸ hm)
  · exact fun home m hm => .inl (hdead ▸ hm)
  · exact fun m hm => absurd (hdone ▸ hm) List.not_mem_nil

theorem Service.Lives.accept {place : String → Option (Spot Node)} (hkept : Kept s place)
    (ms : List (Message Node Payload)) {call : Call Node Payload} {evs : List (Event Node Payload)}
    (hk : ∃ place, Kept (s.move n ((s.nodes n).suspend call) s.redis evs) place)
    (hwaiting : ∀ m, m ∈ call.shelf .waiting ↔ m ∈ ms)
    (hother : ∀ sh, sh ≠ .waiting → call.shelf sh = [])
    (hfresh : ∀ m ∈ ms, m.messageId ∉ createdIds s.history) (hnew : ∀ m ∈ ms, m.retryCount = 0)
    (hdone : acknowledgedMessages evs = []) :
    (s.move n ((s.nodes n).suspend call) s.redis evs).Lives maxRetries turns := by
  obtain ⟨place', hk⟩ := hk
  refine h.ship [] hk ms (fun _ => .node n .waiting)
    (mem_box_move (fun sh m hm => ?_) (fun home m => .inl) (fun home m => .inl) ?_)
    (fun m hm => ⟨?_, ?_⟩) nofun pushes_subset_move
  · cases List.mem_append.mp ((shelf_suspend _ call sh).subset hm) with
    | inr hold => exact .inl hold
    | inl harrived =>
      by_cases hsh : sh = .waiting
      · subst hsh
        exact .inr ⟨(hwaiting m).mp harrived, rfl⟩
      · rw [hother sh hsh] at harrived
        cases harrived
  · exact fun m hm => absurd (hdone ▸ hm) List.not_mem_nil
  · rw [Service.box, move_self]
    exact (shelf_suspend _ call _).symm.subset (List.mem_append_left _ ((hwaiting m).mpr hm))
  · have hunpushed : m.messageId ∉ (pushes s.history).map Message.messageId := by
      intro hmem
      obtain ⟨m', hm', hid⟩ := List.mem_map.mp hmem
      obtain ⟨i, hi, -⟩ := hkept.pushed m' hm'
      exact hfresh m hm (hid ▸ hkept.created _ i hi)
    exact ⟨.unborn, h.unpushed _ hunpushed, rfl, hnew m hm⟩

theorem Service.Lives.push (hmax : 1 ≤ maxRetries) {place : String → Option (Spot Node)}
    (hkept : Kept s place) (ms : List (Message Node Payload)) {k : Nat}
    {call : Call Node Payload} {y : QueueNode Node Payload} {evs : List (Event Node Payload)}
    (hk : ∃ place, Kept (s.move n y (ms.foldl Redis.rpush s.redis) evs) place)
    (hcall : (s.nodes n).calls[k]? = some call) (hwaiting : call.shelf .waiting = ms)
    (hshelf : ∀ sh, (y.shelf sh).Perm (((s.nodes n).wake k).shelf sh))
    (hpush : pushes evs = ms.reverse) (hdone : acknowledgedMessages evs = []) :
    (s.move n y (ms.foldl Redis.rpush s.redis) evs).Lives maxRetries
      ((ms.reverse.map fun msg => (msg.messageId, .pushed)) ++ turns) := by
  obtain ⟨place', hk⟩ := hk
  have hwake := shelf_wake (s.nodes n) hcall
  refine h.ship _ hk ms (fun m => .queue m.home)
    (mem_box_move (fun sh m hm => ?_) (fun home m hm => ?_) (fun home m hm => ?_) ?_)
    (fun m hm => ⟨?_, ?_⟩) (fun e he => ?_) pushes_subset_move
  · exact .inl ((hwake sh).symm.subset (List.mem_append_right _ ((hshelf sh).subset hm)))
  · rw [queue_foldl_rpush] at hm
    refine (List.mem_append.mp hm).imp_right fun hnew => ?_
    obtain ⟨hmem, hhome⟩ := List.mem_filter.mp hnew
    exact ⟨hmem, congrArg _ (of_decide_eq_true hhome)⟩
  · rw [dlq_foldl_rpush] at hm
    exact .inl hm
  · exact fun m hm => absurd (hdone ▸ hm) List.not_mem_nil
  · rw [Service.box, move_redis, queue_foldl_rpush]
    exact List.mem_append_right _ (List.mem_filter.mpr ⟨hm, decide_eq_true rfl⟩)
  · have hmem : m ∈ s.box (.node n .waiting) := by
      refine (hwake .waiting).symm.subset (List.mem_append_left _ ?_)
      rwa [hwaiting]
    obtain ⟨x, hlife, rfl, hzero⟩ := h.placed (.node n .waiting) m hmem
    have hnodup : (ms.reverse.map Message.messageId).Nodup := by
      have hn := ((hwake .waiting).map Message.messageId).nodup_iff.mp
        (hkept.custody.nodup (.node n .waiting))
      rw [List.map_append, hwaiting] at hn
      rw [List.map_reverse]
      exact List.nodup_reverse.mpr (List.nodup_append.mp hn).1
    refine ⟨.listed 0, ?_, by rw [hzero], by omega⟩
    have hpushed := life_pushed hnodup (List.mem_map_of_mem (List.mem_reverse.mpr hm)) hlife
    rwa [List.map_map] at hpushed
  · obtain ⟨m, hm, rfl⟩ := List.mem_map.mp he
    refine ⟨List.mem_map_of_mem (List.mem_reverse.mp hm), ?_⟩
    rw [move_history, pushes_append, hpush]
    exact List.mem_map_of_mem (List.mem_append_left _ hm)

theorem Service.Lives.acknowledge {place : String → Option (Spot Node)} (hkept : Kept s place)
    {messageId : String} {msg : Message Node Payload}
    (hm : (s.nodes n).inFlight.get? messageId = some msg) :
    (s.move n (((s.nodes n).untrack messageId).suspend (.set msg)) s.redis
      [.acknowledging n msg]).Lives maxRetries ((msg.messageId, .acknowledged n) :: turns) := by
  obtain ⟨place', hk⟩ := hkept.acknowledge hm
  refine h.shipOne hkept hk (i := .node n .inFlight) (mem_shelf_inFlight hm) rfl
    (.node n .committing) msg rfl ?_ (.acknowledged n) ?_
    (mem_box_move (fun sh m hm' => ?_) (fun home m => .inl) (fun home m => .inl) nofun)
    pushes_subset_move
  · rw [Service.box, move_self]
    exact (shelf_suspend _ _ _).symm.subset List.mem_cons_self
  · rintro x ⟨rfl, -⟩
    exact ⟨_, if_pos rfl, rfl⟩
  · exact mem_shelf_replace hm (fun sh => by cases sh <;> rfl) hm'

theorem Service.Lives.ack {place : String → Option (Spot Node)} (hkept : Kept s place)
    (messageId : String) : (s.acknowledge n messageId).Lives maxRetries
      (((s.nodes n).inFlight.get? messageId).toList.map (fun msg =>
        (msg.messageId, .acknowledged n)) ++ turns) := by
  unfold Service.acknowledge QueueNode.acknowledge
  cases hm : (s.nodes n).inFlight.get? messageId with
  | none => exact h
  | some msg => exact h.acknowledge hkept hm

theorem Service.Lives.set {place : String → Option (Spot Node)} (hkept : Kept s place)
    {k : Nat} {msg : Message Node Payload}
    (hk : ∃ place, Kept (s.move n ((s.nodes n).wake k) (s.redis.commit msg)
      [.acknowledged n msg]) place)
    (hcall : (s.nodes n).calls[k]? = some (.set msg)) :
    (s.move n ((s.nodes n).wake k) (s.redis.commit msg) [.acknowledged n msg]).Lives
      maxRetries ((msg.messageId, .committed n) :: turns) := by
  obtain ⟨place', hk⟩ := hk
  have hwake := shelf_wake (s.nodes n) hcall
  refine h.shipOne hkept hk (i := .node n .committing)
    ((hwake .committing).symm.subset List.mem_cons_self) rfl .done msg rfl List.mem_cons_self
    (.committed n) ?_
    (mem_box_move (fun sh m hm => ?_) (fun home m => .inl) (fun home m => .inl) ?_)
    pushes_subset_move
  · rintro x rfl
    exact ⟨_, if_pos rfl, rfl⟩
  · exact .inl ((hwake sh).symm.subset (List.mem_append_right _ hm))
  · exact fun m hm => ⟨hm, rfl⟩

theorem Service.Lives.negativeAcknowledge {place : String → Option (Spot Node)}
    (hkept : Kept s place) {messageId : String} {timedOut : Option (List String)}
    {y : QueueNode Node Payload}
    (hy : (s.nodes n).negativeAcknowledge messageId timedOut = some y) :
    (s.move n y s.redis []).Lives maxRetries ((messageId, .nacked n) :: turns) := by
  obtain ⟨place', hk⟩ := hkept.negativeAcknowledge hy
  obtain ⟨msg, hm, rfl⟩ := negativeAcknowledge_eq_some hy
  have hid : msg.messageId = messageId := (hkept.keyed n).messageId_eq hm
  subst hid
  refine h.shipOne hkept hk (i := .node n .inFlight) (mem_shelf_inFlight hm) rfl
    (.node n .carried) { msg with retryCount := msg.retryCount + 1 } rfl ?_ (.nacked n) ?_
    (mem_box_move (fun sh m hm' => ?_) (fun home m => .inl) (fun home m => .inl) nofun)
    pushes_subset_move
  · rw [Service.box, move_self]
    exact (shelf_suspend _ _ _).symm.subset List.mem_cons_self
  · rintro x ⟨rfl, hlt⟩
    exact ⟨_, if_pos rfl, rfl, hlt⟩
  · exact mem_shelf_replace hm (fun sh => by cases sh <;> rfl) hm'

theorem Service.Lives.checkTimedOut {place : String → Option (Spot Node)} (hkept : Kept s place)
    (timedOut : List String) :
    (s.move n ((s.nodes n).checkTimedOut timedOut) s.redis []).Lives maxRetries
      ((s.nodes n).givesBack n timedOut ++ turns) := by
  cases checkTimedOut_cases (s.nodes n) timedOut with
  | inl hnone =>
    rw [QueueNode.givesBack, hnone.1, hnone.2]
    exact h.idle (hkept.idle (fun _ => .refl _) (hkept.keyed n) rfl rfl rfl rfl (by simp))
      (fun _ => .refl _) rfl rfl rfl
  | inr hnext =>
    obtain ⟨before, messageId, rest, -, -, hfirst, hy⟩ := hnext
    rw [QueueNode.givesBack, hfirst]
    exact h.negativeAcknowledge hkept hy

theorem Service.Lives.lpop {place : String → Option (Spot Node)} (hkept : Kept s place)
    {k : Nat} {topic : String} {p : Int} {rest : List Int} {batchSize : Nat}
    {messages : List (Message Node Payload)} {raw : Message Node Payload}
    (hcall : (s.nodes n).calls[k]? = some (.lpop topic p rest batchSize messages))
    (hq : s.redis.queue (topic, p) = raw :: (s.redis.queue (topic, p)).tail)
    {r : QueueNode Node Payload × Option (List (Message Node Payload))}
    (hr : r = (((s.nodes n).wake k).track { raw with partition := p }).poll topic batchSize
      (messages ++ [{ raw with partition := p }]) rest) :
    (s.move n r.1 (s.redis.pop (topic, p))
      (returns n r.2 ++ [.taken n { raw with partition := p }])).Lives maxRetries
      ((raw.messageId, .delivered n) :: turns) := by
  obtain ⟨place', hk⟩ := hkept.lpop hcall hq hr
  have hraw : raw ∈ s.box (.queue (topic, p)) := by
    rw [Service.box, hq]
    exact List.mem_cons_self
  have hsame : { raw with partition := p } = raw := by
    rw [← (Prod.mk.inj (hkept.filed (.queue (topic, p)) _ rfl raw hraw)).2]
  rw [hsame] at hk hr ⊢
  have hshelf (sh : Shelf) (m : Message Node Payload) :
      m ∈ r.1.shelf sh ↔ m ∈ (((s.nodes n).wake k).track raw).shelf sh := by
    rw [hr]
    exact (shelf_poll _ _ _ _ _ sh).mem_iff
  refine h.shipOne hkept hk hraw rfl (.node n .inFlight) raw rfl ?_ (.delivered n) ?_
    (mem_box_move (fun sh m hm => ?_) (fun home m hm => ?_) (fun home m => .inl) ?_)
    pushes_subset_move
  · rw [Service.box, move_self, hshelf]
    exact mem_shelf_inFlight (Dict.get?_set_self _ _ _)
  · rintro x ⟨rfl, hlt⟩
    exact ⟨_, rfl, rfl, hlt⟩
  · refine (mem_shelf_track ((hshelf sh m).mp hm)).imp (fun hold => ?_) fun hnew => ?_
    · exact (shelf_wake (s.nodes n) hcall sh).symm.subset (List.mem_append_right _ hold)
    · exact ⟨List.mem_singleton.mpr hnew.1, hnew.2 ▸ rfl⟩
  · rw [queue_pop] at hm
    split at hm
    · exact .inl (List.mem_of_mem_tail hm)
    · exact .inl hm
  · rw [acknowledgedMessages_append, acknowledgedMessages_returns]
    exact List.forall_mem_nil _

theorem Service.Lives.pushAgain {place : String → Option (Spot Node)} (hkept : Kept s place)
    {k : Nat} {msg : Message Node Payload} {timedOut : Option (List String)} (j : Spot Node)
    {r : Redis Node Payload} (hcall : (s.nodes n).calls[k]? = some (.requeue msg timedOut))
    (hk : ∃ place, Kept (s.move n ((s.nodes n).wake k) r []) place) (turn : Turn Node)
    (hj : j = .queue msg.home ∧ turn = .requeued n ∧ msg.retryCount < maxRetries ∨
      j = .dead msg.home ∧ turn = .buried n ∧ maxRetries ≤ msg.retryCount)
    (hgains : s.redis.Gains r j msg) :
    (s.move n ((s.nodes n).wake k) r []).Lives maxRetries ((msg.messageId, turn) :: turns) := by
  obtain ⟨place', hk⟩ := hk
  have hwake := shelf_wake (s.nodes n) hcall
  refine h.shipOne hkept hk (i := .node n .carried)
    ((hwake .carried).symm.subset List.mem_cons_self) rfl j msg rfl ?_ turn ?_
    (mem_box_move (fun sh m hm => ?_) (fun home m hm => ?_) (fun home m hm => ?_) nofun)
    pushes_subset_move
  · obtain ⟨rfl, -⟩ | ⟨rfl, -⟩ := hj
    · exact (hgains.queue _).symm.subset (by simp)
    · exact (hgains.dead _).symm.subset (by simp)
  · rintro x ⟨rfl, hle⟩
    obtain ⟨rfl, rfl, hlt⟩ | ⟨rfl, rfl, hge⟩ := hj
    · exact ⟨_, if_pos ⟨rfl, hlt⟩, rfl, hlt⟩
    · exact ⟨_, if_pos ⟨rfl, le_antisymm hle hge⟩, rfl⟩
  · exact .inl ((hwake sh).symm.subset (List.mem_append_right _ hm))
  · exact mem_ite_append ((hgains.queue home).subset hm)
  · exact mem_ite_append ((hgains.dead home).subset hm)

theorem Service.Lives.nack {place : String → Option (Spot Node)} (hkept : Kept s place)
    (messageId : String) :
    (s.negativeAcknowledge n messageId).Lives maxRetries
      ((s.nodes n).givesBack n [messageId] ++ turns) := by
  unfold Service.negativeAcknowledge QueueNode.givesBack QueueNode.firstInFlight
  cases hm : (s.nodes n).inFlight.get? messageId with
  | none =>
    rw [QueueNode.negativeAcknowledge, hm, List.find?_singleton, hm]
    exact h
  | some msg =>
    have hy : (s.nodes n).negativeAcknowledge messageId none =
        some (((s.nodes n).untrack messageId).suspend
          (.requeue { msg with retryCount := msg.retryCount + 1 } none)) := by
      rw [QueueNode.negativeAcknowledge, hm, Option.map_some]
    rw [hy, List.find?_singleton, hm]
    exact h.negativeAcknowledge hkept hy

theorem Service.Lives.requeue {place : String → Option (Spot Node)} (hkept : Kept s place)
    {k : Nat} {msg : Message Node Payload} {timedOut : Option (List String)} (j : Spot Node)
    {r : Redis Node Payload} (hcall : (s.nodes n).calls[k]? = some (.requeue msg timedOut))
    (turn : Turn Node)
    (hj : j = .queue msg.home ∧ turn = .requeued n ∧ msg.retryCount < maxRetries ∨
      j = .dead msg.home ∧ turn = .buried n ∧ maxRetries ≤ msg.retryCount)
    (hgains : s.redis.Gains r j msg) :
    (s.move n (((s.nodes n).wake k).checkTimedOut (timedOut.getD [])) r []).Lives maxRetries
      ((s.nodes n).givesBack n (timedOut.getD []) ++ (msg.messageId, turn) :: turns) := by
  have hhome : j.home? = some msg.home := by
    obtain ⟨rfl, -⟩ | ⟨rfl, -⟩ := hj <;> rfl
  have hk := hkept.pushAgain j hcall hhome hgains
  have hpushed := h.pushAgain hkept j hcall hk turn hj hgains
  obtain ⟨place', hk⟩ := hk
  have hchecked := hpushed.checkTimedOut (n := n) hk (timedOut.getD [])
  rwa [move_self, move_move, move_redis, List.append_nil] at hchecked

end Step

section Run
variable {turns : List (String × Turn Node)}

theorem Service.Lives.step {place : String → Option (Spot Node)} (hmax : 1 ≤ cfg.maxRetries)
    (hkept : Kept s place) (h : s.Lives cfg.maxRetries turns) {a : Action Node Payload}
    (hs : (queue cfg).step s a = some t) : t.Lives cfg.maxRetries (s.turns cfg a ++ turns) := by
  have hk := hkept.step hs
  cases step_cases hs with
  | produce n topic payload key headers messageId timestamp hfresh =>
    unfold QueueNode.produce at hk ⊢
    split
    · rename_i hlarge
      rw [if_pos hlarge] at hk
      exact h.idle hk (fun _ => .refl _) rfl rfl rfl
    · rename_i hfits
      rw [if_neg hfits] at hk
      exact h.accept hkept [cfg.message n topic payload key headers messageId timestamp] hk
        (fun m => .rfl) (fun sh hsh => by cases sh <;> first | rfl | exact absurd rfl hsh)
        (by simpa [Config.message] using hfresh) (by simp [Config.message]) rfl
  | produceBatch n topic items hnodup hfresh =>
    refine h.accept hkept (cfg.batch n topic items) hk (fun m => (pipeline_perm _).mem_iff)
      (fun sh hsh => by cases sh <;> first | rfl | exact absurd rfl hsh) hfresh (fun m hm => ?_)
      (by simp [acknowledgedMessages])
    obtain ⟨i, hi, rfl⟩ := List.mem_mapIdx.mp hm
    rfl
  | consume n topic groupId consumerId partitions batchSize =>
    exact h.idle hk (fun sh => shelf_poll _ _ _ _ _ sh) rfl rfl (acknowledgedMessages_returns _)
  | acknowledge n messageId msg hm => exact Option.some.inj hs ▸ h.ack hkept messageId
  | acknowledgeUnknown n messageId =>
    have hack := h.ack hkept (n := n) messageId
    rwa [Option.some.inj hs] at hack
  | negativeAcknowledge n messageId y hy => exact Option.some.inj hs ▸ h.nack hkept messageId
  | negativeAcknowledgeUnknown n messageId =>
    have hnack := h.nack hkept (n := n) messageId
    rwa [Option.some.inj hs] at hnack
  | checkTimeouts n now => exact h.checkTimedOut hkept _
  | rpush n k msg hcall =>
    simp only [Service.turns, hcall]
    exact h.push hmax hkept [msg] hk hcall rfl
      (fun sh => (shelf_suspend _ _ sh).trans (by cases sh <;> exact .refl _)) rfl rfl
  | incr n k msg hcall =>
    simp only [Service.turns, hcall]
    exact h.idle hk (shelf_wake_idle hcall fun sh => by cases sh <;> rfl) rfl rfl rfl
  | execute n k pipe hcall =>
    simp only [Service.turns, hcall]
    exact h.push hmax hkept pipe hk hcall rfl (fun sh => .refl _) (by simp [pushes])
      (by simp [acknowledgedMessages])
  | lpopEmpty n k topic p rest batchSize messages hcall =>
    cases hq : s.redis.queue (topic, p) with
    | nil =>
      simp only [Service.turns, hcall, hq]
      refine h.idle hk (fun sh => (shelf_poll _ _ _ _ _ sh).trans ?_) rfl rfl
        (acknowledgedMessages_returns _)
      exact shelf_wake_idle hcall (fun sh => by cases sh <;> rfl) sh
    | cons raw tail =>
      have ht : s.resume cfg n k = some _ := hs
      simp only [Service.resume, hcall, hq, Option.map_some] at ht
      rw [← Option.some.inj ht]
      simp only [Service.turns, hcall, hq]
      exact h.lpop hkept hcall (by rw [hq, List.tail_cons]) rfl
  | lpop n k topic p rest batchSize messages raw hcall hq r hr =>
    simp only [Service.turns, hcall]
    rw [hq]
    exact h.lpop hkept hcall hq hr
  | set n k msg hcall =>
    simp only [Service.turns, hcall]
    exact h.set hkept hk hcall
  | bury n k msg timedOut hcall hge =>
    simp only [Service.turns, hcall, ge_iff_le, if_pos hge]
    rw [List.append_assoc]
    exact h.requeue hkept (.dead msg.home) hcall (.buried n) (.inr ⟨rfl, rfl, hge⟩)
      (s.redis.gains_bury msg)
  | requeue n k msg timedOut hcall hlt =>
    simp only [Service.turns, hcall, ge_iff_le, if_neg (not_le.mpr hlt)]
    rw [List.append_assoc]
    exact h.requeue hkept (.queue msg.home) hcall (.requeued n) (.inl ⟨rfl, rfl, hlt⟩)
      (s.redis.gains_lpush msg)

theorem lives_reach (hmax : 1 ≤ cfg.maxRetries)
    {p : Service Node Payload × List (String × Turn Node)} (h : (livedQueue cfg).Reachable p) :
    p.1.Lives cfg.maxRetries p.2 := by
  have hempty : ((queue cfg).init).Lives cfg.maxRetries [] :=
    ⟨fun i m hm => absurd (Kept.init.custody.place_of_mem hm) nofun, fun _ _ => rfl⟩
  refine h.invariant (I := fun p => p.1.Lives cfg.maxRetries p.2) hempty ?_
  intro p a q hr hp _ hs
  obtain ⟨hstep, hwatch⟩ := System.watched_step.mp hs
  obtain ⟨place, hkept⟩ := kept_reach hr.unwatched
  rw [← Option.some.inj hwatch]
  exact hp.step hmax hkept hstep

/-- The message is once in one box, the one that the stage says. -/
def Service.At (maxRetries : Nat) (s : Service Node Payload) (messageId : String)
    (x : Stage Node) : Prop :=
  ∃ i, ∃ m ∈ s.box i, m.messageId = messageId ∧ i.waits = false ∧
    i.Stages maxRetries m.retryCount x ∧
    ∀ j, copies Message.messageId messageId (s.box j) = if j = i then 1 else 0

/-- The turns of each message are those of one life, at whose end the message is where its stage
says. -/
theorem lives_in_turn (hmax : 1 ≤ cfg.maxRetries)
    {p : Service Node Payload × List (String × Turn Node)} (h : (livedQueue cfg).Reachable p)
    (messageId : String) : ∃ x, life cfg.maxRetries messageId p.2 = some x ∧
      (x = .unborn ∧ messageId ∉ (pushes p.1.history).map Message.messageId ∨
        p.1.At cfg.maxRetries messageId x) := by
  have hlives := lives_reach hmax h
  obtain ⟨place, hk⟩ := kept_reach h.unwatched
  by_cases hid : messageId ∈ (pushes p.1.history).map Message.messageId
  · obtain ⟨m, hm, rfl⟩ := List.mem_map.mp hid
    obtain ⟨i, hi, hw⟩ := hk.pushed m hm
    obtain ⟨m', hm', hid'⟩ := hk.custody.exists_mem hi
    obtain ⟨x, hx, hstage⟩ := hlives.placed i m' hm'
    refine ⟨x, hid' ▸ hx, .inr ⟨i, m', hm', hid', hw, hstage, fun j => ?_⟩⟩
    rw [hk.custody, hi]
    simp [eq_comm]
  · exact ⟨_, hlives.unpushed messageId hid, .inl ⟨rfl, hid⟩⟩

theorem lives_in_turn_nackedThrice : ∃ p,
    (livedQueue plain).run (livedQueue plain).init nackedThrice = some p ∧
      p.2.map Prod.snd = [.buried 0, .nacked 0, .delivered 0, .requeued 1, .nacked 1, .delivered 1,
        .requeued 0, .nacked 0, .delivered 0, .pushed] ∧
      ∃ x, life 3 "m" p.2 = some x ∧
        (x = .unborn ∧ "m" ∉ (pushes p.1.history).map Message.messageId ∨ p.1.At 3 "m" x) := by
  have hrun : ((livedQueue plain).run (livedQueue plain).init nackedThrice).any (fun p =>
      p.2.map Prod.snd = [.buried 0, .nacked 0, .delivered 0, .requeued 1, .nacked 1, .delivered 1,
        .requeued 0, .nacked 0, .delivered 0, .pushed]) = true := by
    decide +kernel
  obtain ⟨p, hp, hturns⟩ := (Option.any_eq_true ..).mp hrun
  exact ⟨p, hp, of_decide_eq_true hturns,
    lives_in_turn (by decide) (System.reachable_run hp) "m"⟩

end Run
end DistSync.Queue
