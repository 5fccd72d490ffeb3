import Mathlib.Data.Finset.Basic
import DistSync.Dict
import DistSync.Detector.Phi

/-! The table of detectors that a node keeps for others. A heartbeat of a node without a
detector makes one; what is removed is no longer known to be alive. -/
namespace DistSync.Detector

/-- What the table uses of the detectors in it. -/
structure Accrual (τ δ : Type) where
  create : δ
  heartbeat : δ → τ → δ
  isAvailable : δ → τ → Bool

noncomputable def phiAccrual (phiThreshold : ℝ) : Accrual ℝ PhiAccrualDetector where
  create := PhiAccrualDetector.withThreshold phiThreshold
  heartbeat := PhiAccrualDetector.heartbeat
  isAvailable := PhiAccrualDetector.isAvailable

theorem phiAccrual_create_available (phiThreshold : ℝ) (h : 0 < phiThreshold) (now : ℝ) :
    (phiAccrual phiThreshold).isAvailable (phiAccrual phiThreshold).create now = true :=
  decide_eq_true h

/-- The callbacks are somebody else's code: only whether one is set is known here. -/
structure FailureDetector (δ : Type) where
  detectors : Dict String δ := ∅
  knownAlive : Finset String := ∅
  onFailure : Bool := false
  onRecovery : Bool := false
  running : Bool := false

namespace FailureDetector
variable {τ δ : Type} (A : Accrual τ δ)

def addNode (d : FailureDetector δ) (nodeId : String) : FailureDetector δ :=
  match d.detectors.get? nodeId with
  | none => { d with detectors := d.detectors.set nodeId A.create }
  | some _ => d

def removeNode (d : FailureDetector δ) (nodeId : String) : FailureDetector δ :=
  { d with
    detectors := d.detectors.erase nodeId
    knownAlive := d.knownAlive.erase nodeId }

def recordHeartbeat (d : FailureDetector δ) (fromNode : String) (now : τ) : FailureDetector δ :=
  let d := d.addNode A fromNode
  match d.detectors.get? fromNode with
  | none => d
  | some detector =>
    { d with detectors := d.detectors.set fromNode (A.heartbeat detector now) }

def getAliveNodes (d : FailureDetector δ) (now : τ) : Finset String :=
  (d.detectors.keysWhere fun detector => A.isAvailable detector now).toFinset

def Monitored (d : FailureDetector δ) (n : String) : Prop := (d.detectors.get? n).isSome

instance (d : FailureDetector δ) (n : String) : Decidable (d.Monitored n) :=
  inferInstanceAs (Decidable (_ = true))

variable {A} {d : FailureDetector δ} {n m : String} {now : τ}

theorem get?_addNode : (d.addNode A n).detectors.get? m =
    if n = m then some ((d.detectors.get? n).getD A.create) else d.detectors.get? m := by
  cases hn : d.detectors.get? n with
  | none => simp only [addNode, hn, Dict.get?_set, Option.getD_none]
  | some detector =>
    simp only [addNode, hn, Option.getD_some]
    split
    · rename_i he
      exact he ▸ hn
    · rfl

theorem get?_recordHeartbeat : (d.recordHeartbeat A n now).detectors.get? m =
    if n = m then some (A.heartbeat ((d.detectors.get? n).getD A.create) now)
    else d.detectors.get? m := by
  have hn : (d.addNode A n).detectors.get? n = some ((d.detectors.get? n).getD A.create) := by
    rw [get?_addNode, if_pos rfl]
  rw [recordHeartbeat, hn]
  simp only [Dict.get?_set, get?_addNode]
  split <;> rfl

theorem monitored_addNode : (d.addNode A n).Monitored m ↔ n = m ∨ d.Monitored m := by
  rw [Monitored, get?_addNode]
  by_cases h : n = m <;> simp [h, Monitored]

theorem monitored_recordHeartbeat :
    (d.recordHeartbeat A n now).Monitored m ↔ n = m ∨ d.Monitored m := by
  rw [Monitored, get?_recordHeartbeat]
  by_cases h : n = m <;> simp [h, Monitored]

theorem monitored_removeNode : (d.removeNode n).Monitored m ↔ m ≠ n ∧ d.Monitored m := by
  rw [Monitored, removeNode, Dict.get?_erase]
  by_cases h : m = n <;> simp [h, Monitored]

theorem monitored_of_alive (h : n ∈ d.getAliveNodes A now) : d.Monitored n := by
  obtain ⟨detector, hget, -⟩ := Dict.mem_keysWhere.mp (List.mem_toFinset.mp h)
  rw [Monitored, hget]
  rfl

end FailureDetector
end DistSync.Detector
