import DistSync.Queue.Ledger

/-! Nothing is lost and nothing is doubled: from its first push on a message is in one of the
boxes, once, and what was acknowledged is not taken from a list again. -/
namespace DistSync.Queue
variable {Node Payload : Type} [DecidableEq Node] {cfg : Config Node Payload}
  {s t : Service Node Payload}

/-- The message is once in one box and in no other: in the list or the dead-letter list of its
partition, in flight, with a `negative_acknowledge`, with an `acknowledge`, or done. -/
def Service.InOnePlace (s : Service Node Payload) (m : Message Node Payload) : Prop :=
  ∃ i : Spot Node, i.waits = false ∧ (∀ home, i.home? = some home → home = m.home) ∧
    ∀ j, copies Message.messageId m.messageId (s.box j) = if j = i then 1 else 0

def Event.acknowledges : Event Node Payload → Option String
  | .acknowledging _ msg => some msg.messageId
  | _ => none

def Event.takes : Event Node Payload → Option String
  | .taken _ msg => some msg.messageId
  | _ => none

def TakenLast (h : List (Event Node Payload)) : Prop :=
  h.Pairwise fun e e' => ∀ messageId ∈ e'.acknowledges, messageId ∉ e.takes

/-- Each message is in one place from its first push on, and no `consume` takes one from a list
after an `acknowledge` took it. -/
structure Service.Conserves (s : Service Node Payload) : Prop where
  onePlace : ∀ m ∈ pushes s.history, s.InOnePlace m
  final : TakenLast s.history

theorem Kept.inOnePlace {place : String → Option (Spot Node)} (h : Kept s place)
    {m : Message Node Payload} (hm : m ∈ pushes s.history) : s.InOnePlace m := by
  obtain ⟨i, hi, hw⟩ := h.pushed m hm
  refine ⟨i, hw, fun home hhome => ?_, fun j => ?_⟩
  · obtain ⟨m₁, hm₁, hid⟩ := h.custody.exists_mem hi
    obtain ⟨m₂, hm₂, hid₂, hhome₂⟩ := h.origin i hw m₁ hm₁
    have hsame : m₂ = m := List.inj_on_of_nodup_map h.once hm₂ hm (hid₂.trans hid)
    rw [← hsame, hhome₂, h.filed i home hhome m₁ hm₁]
  · rw [h.custody, hi]
    simp [eq_comm]

omit [DecidableEq Node] in
theorem TakenLast.append {evs h : List (Event Node Payload)} (hh : TakenLast h)
    (hnone : ∀ e ∈ evs, e.takes = none) : TakenLast (evs ++ h) := by
  have hquiet {e : Event Node Payload} (he : e ∈ evs) (messageId : String) :
      messageId ∉ e.takes := by
    rw [hnone e he]
    exact nofun
  refine List.pairwise_append.mpr ⟨?_, hh, fun e he e' _ messageId _ => hquiet he messageId⟩
  exact List.pairwise_of_forall_mem_list fun e he e' _ messageId _ => hquiet he messageId

omit [DecidableEq Node] in
theorem takes_returns {n : Node} {o : Option (List (Message Node Payload))} :
    ∀ e ∈ returns n o, e.takes = none := by
  cases o <;> simp [returns, Event.takes]

/-- What a `consume` takes lies in a list, so no `acknowledge` has it. -/
theorem Kept.takenLast_step {place : String → Option (Spot Node)} (h : Kept s place)
    {a : Action Node Payload} (hs : (queue cfg).step s a = some t) (hlast : TakenLast s.history) :
    TakenLast t.history := by
  cases step_cases hs with
  | lpop n k topic p rest batchSize messages raw hk hq r hr =>
    rw [move_history, List.append_assoc, List.singleton_append]
    refine TakenLast.append (List.pairwise_cons.mpr ⟨fun e he messageId hack htake => ?_, hlast⟩)
      takes_returns
    have hraw : raw ∈ s.box (.queue (topic, p)) := by
      rw [Service.box, hq]
      exact List.mem_cons_self
    have htaken : raw.messageId = messageId := Option.some.inj htake
    cases e with
    | acknowledging n' m =>
      obtain ⟨i, hi, hsettled⟩ := h.acknowledging n' m he
      have hid : m.messageId = messageId := Option.some.inj hack
      rw [hid, ← htaken, h.custody.place_of_mem hraw] at hi
      cases hi
      cases hsettled
    | _ => cases hack
  | consume n topic groupId consumerId partitions batchSize => exact hlast.append takes_returns
  | lpopEmpty n k topic p rest batchSize messages hk => exact hlast.append takes_returns
  | acknowledgeUnknown n messageId => exact hlast
  | negativeAcknowledgeUnknown n messageId => exact hlast
  | _ => exact hlast.append (by simp [Event.takes])

/-- Each message is in one place from its first push on, and an acknowledged one is not taken
from a list again. -/
theorem conserves (h : (queue cfg).Reachable s) : s.Conserves := by
  obtain ⟨place, hk⟩ := kept_reach h
  have hnil : TakenLast (queue cfg).init.history := List.Pairwise.nil
  refine ⟨fun m hm => hk.inOnePlace hm, ?_⟩
  refine h.invariant (I := fun s => TakenLast s.history) hnil fun s a t hr hlast _ hs => ?_
  obtain ⟨place, hk⟩ := kept_reach hr
  exact hk.takenLast_step hs hlast

/-- Node 0 takes a message and is still polling the next partition when the message times out.
Back in its list, it is consumed and acknowledged; then the first `consume` returns it too. -/
def lateReturn : List (Action Nat Nat) :=
  [.produce 0 "orders" 7 none [] "m" 0, .resume 0 0, .resume 0 0,
   .consume 0 "orders" "group" "a" (some [0, 1]) 2, .resume 0 0,
   .checkTimeouts 0 31, .resume 0 1,
   .consume 0 "orders" "group" "b" (some [0]) 1, .resume 0 1,
   .acknowledge 0 "m", .resume 0 1,
   .resume 0 0]

theorem conserves_lateReturn : ∃ s, (queue plain).run (queue plain).init lateReturn = some s ∧
    (pushes s.history).map Message.messageId = ["m"] ∧ s.Conserves := by
  have hrun : ((queue plain).run (queue plain).init lateReturn).any (fun s =>
      (pushes s.history).map Message.messageId = ["m"]) = true := by
    decide +kernel
  obtain ⟨s, hs, hh⟩ := (Option.any_eq_true ..).mp hrun
  exact ⟨s, hs, of_decide_eq_true hh, conserves (System.reachable_run hs)⟩

def Event.acknowledgedId : Event Node Payload → Option String
  | .acknowledged _ msg => some msg.messageId
  | _ => none

def Event.returnedIds : Event Node Payload → List String
  | .returned _ messages => messages.map Message.messageId
  | _ => []

theorem not_returnedLast_lateReturn :
    ∃ s, (queue plain).run (queue plain).init lateReturn = some s ∧
      ¬ s.history.Pairwise fun e e' =>
        ∀ messageId ∈ e'.acknowledgedId, messageId ∉ e.returnedIds := by
  have hrun : ((queue plain).run (queue plain).init lateReturn).any (fun s =>
      ¬ s.history.Pairwise fun e e' =>
        ∀ messageId ∈ e'.acknowledgedId, messageId ∉ e.returnedIds) = true := by
    decide +kernel
  obtain ⟨s, hs, hh⟩ := (Option.any_eq_true ..).mp hrun
  exact ⟨s, hs, of_decide_eq_true hh⟩

end DistSync.Queue
