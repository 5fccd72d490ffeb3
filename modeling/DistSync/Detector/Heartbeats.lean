import DistSync.Detector.FailureDetector
import DistSync.Raft.Deployment

/-! Heartbeats between nodes. A node monitors its peers under their addresses, but records
a heartbeat under the id that the sender gives itself. -/
namespace DistSync.Detector
open Raft (NodeConfig)

/-- A detector that counts what it records. -/
def Accrual.counted {τ δ : Type} (A : Accrual τ δ) : Accrual τ (δ × Nat) where
  create := (A.create, 0)
  heartbeat d now := (A.heartbeat d.1 now, d.2 + 1)
  isAvailable d now := A.isAvailable d.1 now

/-- Nodes with their settings, and who is reachable at which address. -/
structure Fleet (Id : Type) where
  config : Id → NodeConfig
  route : String → Option Id

structure Heartbeat (Id : Type) where
  origin : Id
  peer : String
  senderId : String

/-- `received m n` counts what `m` has been handed of `n`. -/
structure Beating (Id δ : Type) where
  nodes : Id → FailureDetector δ
  net : List (Heartbeat Id) := []
  received : Id → Id → Nat := fun _ _ => 0

inductive Beat (Id τ : Type)
  | send (n : Id) (peer : String)
  | deliver (k : Nat) (now : τ)
  | drop (k : Nat)

/-- What `start` does to the failure detector. -/
def started {τ δ : Type} (A : Accrual τ δ) (cfg : NodeConfig) : FailureDetector δ :=
  cfg.peers.foldl (fun d peer => d.addNode A peer) { onFailure := true }

def handleHeartbeat {τ δ : Type} (A : Accrual τ δ) (d : FailureDetector δ) (senderId : String)
    (now : τ) : FailureDetector δ :=
  if senderId ≠ "" then d.recordHeartbeat A senderId now else d

variable {Id τ δ : Type} [DecidableEq Id]

namespace Beating
variable (F : Fleet Id) (A : Accrual τ δ)

def handle (s : Beating Id δ) (m : Id) (h : Heartbeat Id) (now : τ) : Beating Id δ :=
  { s with
    nodes := Function.update s.nodes m (handleHeartbeat A (s.nodes m) h.senderId now)
    received := Function.update s.received m
      (Function.update (s.received m) h.origin (s.received m h.origin + 1)) }

@[simp] theorem nodes_handle_self (s : Beating Id δ) (m : Id) (h : Heartbeat Id) (now : τ) :
    (s.handle A m h now).nodes m = handleHeartbeat A (s.nodes m) h.senderId now :=
  Function.update_self ..

@[simp] theorem received_handle_self (s : Beating Id δ) (m : Id) (h : Heartbeat Id) (now : τ) :
    (s.handle A m h now).received m =
      Function.update (s.received m) h.origin (s.received m h.origin + 1) :=
  Function.update_self ..

theorem handle_of_ne (s : Beating Id δ) {n m : Id} (hn : n ≠ m) (h : Heartbeat Id) (now : τ) :
    (s.handle A m h now).nodes n = s.nodes n ∧ (s.handle A m h now).received n = s.received n :=
  ⟨Function.update_of_ne hn .., Function.update_of_ne hn ..⟩

def step (s : Beating Id δ) : Beat Id τ → Option (Beating Id δ)
  | .send n peer =>
    if peer ∈ (F.config n).peers then
      some { s with net := s.net ++ [⟨n, peer, (F.config n).nodeId⟩] }
    else none
  | .deliver k now => do
    let h ← s.net[k]?
    let m ← F.route h.peer
    let s := s.handle A m h now
    some { s with net := s.net.eraseIdx k }
  | .drop k => some { s with net := s.net.eraseIdx k }

end Beating

def beating (F : Fleet Id) (A : Accrual τ δ) : System (Beating Id δ) (Beat Id τ) where
  init := { nodes := fun n => started A (F.config n) }
  step := Beating.step F A

/-- The detector stored for each peer has recorded what was received from the node there. -/
def HearsPeers (F : Fleet Id) (s : Beating Id (δ × Nat)) : Prop :=
  ∀ m, ∀ p ∈ (F.config m).peers, ∃ d, (s.nodes m).detectors.get? p = some d ∧
    d.2 = (F.route p).elim 0 (s.received m)

/-- What is delivered comes from a node whose id is the address under which the receiver monitors
it, and is the id of no other peer. -/
def NamedAsAddressed (F : Fleet Id) (s : Beating Id (δ × Nat)) : Beat Id τ → Prop
  | .deliver k _ => ∀ h ∈ s.net[k]?, ∀ m ∈ F.route h.peer, ∀ p ∈ (F.config m).peers,
      F.route p = some h.origin ↔ h.senderId ≠ "" ∧ h.senderId = p
  | _ => True

inductive Beating.Transition (F : Fleet Id) (A : Accrual τ δ) (s : Beating Id δ) :
    Beat Id τ → Beating Id δ → Prop
  | send (n : Id) (peer : String) (hpeer : peer ∈ (F.config n).peers) :
    Transition F A s (.send n peer) { s with net := s.net ++ [⟨n, peer, (F.config n).nodeId⟩] }
  | deliver (k : Nat) (now : τ) (h : Heartbeat Id) (m : Id) (hk : s.net[k]? = some h)
      (hm : F.route h.peer = some m) :
    Transition F A s (.deliver k now) { s.handle A m h now with net := s.net.eraseIdx k }
  | drop (k : Nat) : Transition F A s (.drop k) { s with net := s.net.eraseIdx k }

theorem Beating.step_cases {F : Fleet Id} {A : Accrual τ δ} {s t : Beating Id δ} {a : Beat Id τ}
    (hs : (beating F A).step s a = some t) : Transition F A s a t := by
  cases a with
  | send n peer =>
    simp only [beating, Beating.step] at hs
    split at hs
    · rename_i hpeer
      cases hs
      exact .send n peer hpeer
    · cases hs
  | deliver k now =>
    obtain ⟨h, hk, hs⟩ := Option.bind_eq_some_iff.mp hs
    obtain ⟨m, hm, hs⟩ := Option.bind_eq_some_iff.mp hs
    cases hs
    exact .deliver k now h m hk hm
  | drop k =>
    cases hs
    exact .drop k

variable {F : Fleet Id} {A : Accrual τ δ} {s t : Beating Id (δ × Nat)} {a : Beat Id τ}

theorem get?_handleHeartbeat (d : FailureDetector δ) (senderId p : String) (now : τ) :
    (handleHeartbeat A d senderId now).detectors.get? p =
      if senderId ≠ "" ∧ senderId = p then
        some (A.heartbeat ((d.detectors.get? p).getD A.create) now)
      else d.detectors.get? p := by
  rw [handleHeartbeat]
  by_cases hempty : senderId ≠ ""
  · rw [if_pos hempty, FailureDetector.get?_recordHeartbeat]
    by_cases hp : senderId = p
    · subst hp
      rw [if_pos rfl, if_pos ⟨hempty, rfl⟩]
    · rw [if_neg hp, if_neg fun h => hp h.2]
  · rw [if_neg hempty, if_neg fun h => hempty h.1]

theorem elim_update (route : Option Id) (r : Id → Nat) (o : Id) :
    route.elim 0 (Function.update r o (r o + 1)) =
      route.elim 0 r + if route = some o then 1 else 0 := by
  cases route with
  | none => simp
  | some n =>
    by_cases hn : n = o
    · simp [hn]
    · simp [hn]

theorem hearsPeers_handle (hs : HearsPeers F s) (m : Id) (h : Heartbeat Id) (now : τ) :
    HearsPeers F (s.handle A.counted m h now) ↔
      ∀ p ∈ (F.config m).peers, F.route p = some h.origin ↔ h.senderId ≠ "" ∧ h.senderId = p := by
  have hpeer (p : String) (hp : p ∈ (F.config m).peers) :
      (∃ d, ((s.handle A.counted m h now).nodes m).detectors.get? p = some d ∧
        d.2 = (F.route p).elim 0 ((s.handle A.counted m h now).received m)) ↔
      (F.route p = some h.origin ↔ h.senderId ≠ "" ∧ h.senderId = p) := by
    obtain ⟨d, hd, hcount⟩ := hs m p hp
    rw [Beating.nodes_handle_self, Beating.received_handle_self, get?_handleHeartbeat, hd,
      elim_update, ← hcount]
    by_cases hid : h.senderId ≠ "" ∧ h.senderId = p
    · rw [if_pos hid, iff_true_right hid]
      by_cases hroute : F.route p = some h.origin <;> simp [hroute, Accrual.counted]
    · rw [if_neg hid, iff_false_right hid]
      by_cases hroute : F.route p = some h.origin <;> simp [hroute]
  constructor
  · exact fun ht p hp => (hpeer p hp).mp (ht m p hp)
  · intro hg n p hp
    by_cases hn : n = m
    · subst hn
      exact (hpeer p hp).mpr (hg p hp)
    · obtain ⟨hnode, hreceived⟩ := s.handle_of_ne A.counted hn h now
      rw [hnode, hreceived]
      exact hs n p hp

theorem hearsPeers_step (hs : HearsPeers F s) (ht : (beating F A.counted).step s a = some t) :
    HearsPeers F t ↔ NamedAsAddressed F s a := by
  cases Beating.step_cases ht with
  | send n peer => exact iff_of_true hs trivial
  | drop k => exact iff_of_true hs trivial
  | deliver k now h m hk hm =>
    refine (hearsPeers_handle hs m h now).trans ?_
    simp only [NamedAsAddressed, hk, Option.mem_def, Option.some.injEq, forall_eq', hm]

theorem get?_foldl_addNode (peers : List String) (d : FailureDetector δ) (p : String) :
    (peers.foldl (fun d peer => d.addNode A peer) d).detectors.get? p =
      if p ∈ peers then some ((d.detectors.get? p).getD A.create) else d.detectors.get? p := by
  induction peers generalizing d with
  | nil => rfl
  | cons q peers ih =>
    rw [List.foldl_cons, ih, FailureDetector.get?_addNode]
    by_cases hq : q = p
    · simp [hq]
    · simp [hq, Ne.symm hq]

theorem hearsPeers_init : HearsPeers F (beating F A.counted).init := by
  intro m p hp
  refine ⟨(A.create, 0), ?_, ?_⟩
  · change (started A.counted (F.config m)).detectors.get? p = _
    rw [started, get?_foldl_addNode, if_pos hp]
    rfl
  · cases hroute : F.route p <;> rfl

/-- In a run every detector hears the node that is reachable at its address, and no other, exactly
if every heartbeat delivered carries the address of its sender. -/
theorem heartbeats_reach_detectors_iff (F : Fleet Id) (A : Accrual τ δ) (acts : List (Beat Id τ)) :
    (beating F A.counted).Along (fun _ _ t => HearsPeers F t) (beating F A.counted).init acts ↔
      (beating F A.counted).Along (fun s a _ => NamedAsAddressed F s a)
        (beating F A.counted).init acts :=
  System.along_invariant_iff (I := HearsPeers F) (fun _ _ _ _ hs ht => hearsPeers_step hs ht)
    .init hearsPeers_init acts

theorem step_deliver {s : Beating Id δ} {k : Nat} {h : Heartbeat Id} {m : Id}
    (hk : s.net[k]? = some h) (hm : F.route h.peer = some m) (now : τ) :
    (beating F A).step s (.deliver k now) =
      some { s.handle A m h now with net := s.net.eraseIdx k } := by
  simp only [beating, Beating.step, hk, hm, Option.bind_eq_bind, Option.bind_some]
  rfl

/-- A node whose id is not its address is heard by no detector that monitors it. -/
theorem first_heartbeat_missed {m n : Id} {p q : String} (hp : p ∈ (F.config m).peers)
    (hn : F.route p = some n) (hq : q ∈ (F.config n).peers) (hm : F.route q = some m)
    (hid : (F.config n).nodeId ≠ p) (now : τ) :
    ∃ t u, (beating F A.counted).step (beating F A.counted).init (.send n q) = some t ∧
      (beating F A.counted).step t (.deliver 0 now) = some u ∧ ¬ HearsPeers F u := by
  let h : Heartbeat Id := ⟨n, q, (F.config n).nodeId⟩
  let t : Beating Id (δ × Nat) := { (beating F A.counted).init with net := [h] }
  have hsend : (beating F A.counted).step (beating F A.counted).init (.send n q) = some t :=
    if_pos hq
  have hdeliver := step_deliver (A := A.counted) (s := t) (k := 0) (h := h) rfl hm now
  refine ⟨t, _, hsend, hdeliver, fun hu => hid ?_⟩
  have hnamed := (hearsPeers_step (s := t) hearsPeers_init hdeliver).mp hu
  exact ((hnamed h rfl m hm p hp).mp hn).2

theorem senderId_of_reachable {s : Beating Id δ} (h : (beating F A).Reachable s) :
    ∀ b ∈ s.net, ∃ n, b.senderId = (F.config n).nodeId := by
  induction h with
  | init => exact List.forall_mem_nil _
  | step _ _ ht ih =>
    cases Beating.step_cases ht with
    | send n peer =>
      intro b hb
      cases List.mem_append.mp hb with
      | inl hb => exact ih b hb
      | inr hb => exact ⟨n, by rw [List.mem_singleton.mp hb]⟩
    | drop k | deliver k => exact fun b hb => ih b (List.mem_of_mem_eraseIdx hb)

theorem detector_hears_nothing {s : Beating Id δ} (h : (beating F A).Reachable s) {m : Id}
    (hid : ∀ n, (F.config n).nodeId ∉ (F.config m).peers) {p : String}
    (hp : p ∈ (F.config m).peers) : (s.nodes m).detectors.get? p = some A.create := by
  induction h with
  | init =>
    change (started A (F.config m)).detectors.get? p = _
    rw [started, get?_foldl_addNode, if_pos hp]
    rfl
  | @step s t a hr _ ht ih =>
    cases Beating.step_cases ht with
    | send n peer => exact ih
    | drop k => exact ih
    | deliver k now b r hk =>
      by_cases hm : r = m
      · subst hm
        obtain ⟨n, hn⟩ := senderId_of_reachable hr b (List.mem_of_getElem? hk)
        change ((s.handle A r b now).nodes r).detectors.get? p = _
        rw [Beating.nodes_handle_self, get?_handleHeartbeat, if_neg, ih]
        exact fun hsame => hid n (hn ▸ hsame.2 ▸ hp)
      · change ((s.handle A r b now).nodes m).detectors.get? p = _
        rw [(s.handle_of_ne A (Ne.symm hm) b now).1, ih]

/-- So it takes them for alive for ever, whatever becomes of them. -/
theorem alive_forever {s : Beating Id PhiAccrualDetector}
    (h : (beating F (phiAccrual 8)).Reachable s) {m : Id}
    (hid : ∀ n, (F.config n).nodeId ∉ (F.config m).peers) {p : String}
    (hp : p ∈ (F.config m).peers) (now : ℝ) :
    p ∈ (s.nodes m).getAliveNodes (phiAccrual 8) now := by
  refine List.mem_toFinset.mpr (Dict.mem_keysWhere.mpr ⟨_, detector_hears_nothing h hid hp, ?_⟩)
  exact phiAccrual_create_available 8 (by norm_num) now

def deployed {N : Nat} (D : Raft.Deployment N) : Fleet (Fin N) where
  config := D.config
  route := D.wiring.route

theorem not_hearsPeers_compose : ¬ ∀ acts : List (Beat (Fin 3) ℝ),
    (beating (deployed Raft.compose) (phiAccrual 8).counted).Along
      (fun _ _ t => HearsPeers (deployed Raft.compose) t)
      (beating (deployed Raft.compose) (phiAccrual 8).counted).init acts := by
  intro h
  have hpeer (n m : Fin 3) : Raft.compose.address n ∈ (Raft.compose.config m).peers := by
    refine List.mem_filter.mpr ⟨List.mem_map_of_mem (List.mem_finRange n), ?_⟩
    revert n m
    decide +kernel
  have hid : (Raft.compose.config 1).nodeId ≠ Raft.compose.address 1 := by decide +kernel
  obtain ⟨t, u, ht, hu, hnot⟩ := first_heartbeat_missed (F := deployed Raft.compose)
    (A := phiAccrual 8) (hpeer 1 0) (Raft.compose.route_address 1) (hpeer 0 1)
    (Raft.compose.route_address 0) hid 1000
  exact hnot ((h [.send 1 (Raft.compose.address 0), .deliver 0 1000] t ht).2 u hu).1

end DistSync.Detector
