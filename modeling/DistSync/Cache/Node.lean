import Mathlib.Data.Finset.Dedup
import DistSync.Cache.Store

/-! One `CacheNode`: what its coroutines do between two `await`s, and its handlers. None of
the coroutines that a handler awaits suspends, so a handler is one step. -/
namespace DistSync.Cache

inductive Request (Name Key : Type) where
  | fetch (key : Key) (requester : Name)
  | invalidate (key : Key) (sender : Name)
deriving DecidableEq

/-- The answers of `handle_coherence_message`. -/
inductive Answer (Name Val : Type) where
  | ok
  | notFound
  | found (value : Option Val) (state : MESIState) (nodeId : Name)
deriving DecidableEq

def Answer.carries {Name Val : Type} : Answer Name Val → Bool
  | .found (some _) _ _ => true
  | _ => false

/-- `writebacks` are the lines written back, newest first; the code keeps their number. -/
structure CacheNode (Name Key Val : Type) where
  store : Store Key Val
  sharers : Dict Key (Finset Name) := ∅
  writebacks : List (Key × CacheLine Val) := []

variable {Name Key Val : Type}

def CacheLine.writeback (line : CacheLine Val) : CacheLine Val :=
  if line.dirty then { line with dirty := false } else line

/-- What a fetch request makes of a line: its holder no longer owns it. -/
def CacheLine.demote (line : CacheLine Val) : CacheLine Val :=
  if line.state = .modified then { line.writeback with state := .shared }
  else if line.state = .exclusive then { line with state := .shared }
  else line

namespace CacheNode
variable (x : CacheNode Name Key Val) (nodeId : Name) (key : Key) [DecidableEq Key]

/-- `_sharers.get(key, set())`. -/
def sharersOf : Finset Name := (x.sharers.get? key).getD ∅

variable [DecidableEq Name]

def addSharer (name : Name) : CacheNode Name Key Val :=
  { x with sharers := x.sharers.set key (insert name (x.sharersOf key)) }

/-- `_writeback`, with the line as it is afterwards. -/
def writeback (line : CacheLine Val) : CacheLine Val × CacheNode Name Key Val :=
  if line.dirty then
    ({ line with dirty := false }, { x with writebacks := (key, line) :: x.writebacks })
  else (line, x)

/-- `_handle_eviction`, if `put` has evicted a key. -/
def handleEviction (evicted : Option Key) : CacheNode Name Key Val :=
  match evicted with
  | some k => { x with sharers := x.sharers.erase k }
  | none => x

/-- `read` up to `_fetch_from_peers`, with the value if it is a hit. -/
def read : Option (Option Val) × CacheNode Name Key Val :=
  let r := x.store.get key
  let x := { x with store := r.2 }
  match r.1 with
  | some line => if line.state = .invalid then (none, x) else (some line.value, x)
  | none => (none, x)

/-- The rest of `read`, with a value that `_fetch_from_peers` returned. -/
def readFetched (value : Val) (sourceNode : Option Name) :
    Except Raised (Option Val) × CacheNode Name Key Val :=
  let newState := if sourceNode.isSome then .shared else .exclusive
  let r := x.store.put key { value := some value, state := newState }
  let x := { x with store := r.2 }
  match r.1 with
  | .error e => (.error e, x)
  | .ok evicted => (.ok (some value), (x.handleEviction evicted).addSharer key nodeId)

/-- `write` up to `_invalidate_others`, and whether it has returned before. -/
def write (value : Option Val) : Bool × CacheNode Name Key Val :=
  let r := x.store.get key
  let x := { x with store := r.2 }
  match r.1 with
  | some line =>
    if line.state = .modified then
      (true, { x with
        store := x.store.assign key
          { line with value := value, version := line.version + 1, dirty := true } })
    else if line.state = .exclusive then
      (true, { x with
        store := x.store.assign key
          { line with
            value := value, state := .modified, version := line.version + 1, dirty := true } })
    else (false, x)
  | none => (false, x)

/-- To whom `_invalidate_others` sends: the sharers known, all peers if there are none. -/
def targets (peers : List Name) : Finset Name :=
  let sharers := (x.sharersOf key).erase nodeId
  if sharers = ∅ then peers.toFinset else sharers

/-- The rest of `write` after `_invalidate_others`. -/
def writeInvalidated (value : Option Val) : Except Raised Unit × CacheNode Name Key Val :=
  let r := x.store.put key { value := value, state := .modified, dirty := true }
  let x := { x with store := r.2 }
  match r.1 with
  | .error e => (.error e, x)
  | .ok evicted =>
    let x := x.handleEviction evicted
    (.ok (), { x with sharers := x.sharers.set key {nodeId} })

/-- The rest of `handle_cache_invalidate` after `_invalidate_others`. -/
def deleteInvalidated : CacheNode Name Key Val := { x with store := (x.store.invalidate key).2 }

def handleInvalidation : CacheNode Name Key Val :=
  let r := x.store.get key
  match r.1 with
  | some line =>
    let w := if line.state = .modified then x.writeback key line else (line, x)
    { w.2 with store := ((r.2.assign key { w.1 with state := .invalid }).invalidate key).2 }
  | none => { x with store := r.2 }

/-- What `handle_fetch_request` does with a line before it answers. -/
def supply (line : CacheLine Val) : CacheLine Val × CacheNode Name Key Val :=
  if line.state = .modified then
    let w := x.writeback key line
    ({ w.1 with state := .shared }, w.2)
  else if line.state = .exclusive then ({ line with state := .shared }, x)
  else (line, x)

def handleFetchRequest (requester : Name) : Answer Name Val × CacheNode Name Key Val :=
  let r := x.store.get key
  let x := { x with store := r.2 }
  match r.1 with
  | none => (.notFound, x)
  | some line =>
    if line.state = .invalid then (.notFound, x)
    else
      let w := x.supply key line
      (.found w.1.value w.1.state nodeId,
        { w.2 with store := w.2.store.assign key w.1 }.addSharer key requester)

def handleUpdate (value : Option Val) (version : Int) : CacheNode Name Key Val :=
  let r := x.store.get key
  let x := { x with store := r.2 }
  match r.1 with
  | none => x
  | some line =>
    if line.state = .invalid then x
    else
      { x with
        store := x.store.assign key
          { line with value := value, version := version, state := .shared } }

/-- `handle_coherence_message` for the messages that nodes send. -/
def handleCoherenceMessage : Request Name Key → Answer Name Val × CacheNode Name Key Val
  | .invalidate key _ => (.ok, x.handleInvalidation key)
  | .fetch key requester => x.handleFetchRequest nodeId key requester

def Holds : Prop := ∃ line ∈ x.store.line? key, line.state ≠ .invalid

def Owns : Prop :=
  ∃ line ∈ x.store.line? key, line.state = .modified ∨ line.state = .exclusive

instance : Decidable (x.Holds key) := inferInstanceAs (Decidable (∃ line ∈ _, _))

instance : Decidable (x.Owns key) := inferInstanceAs (Decidable (∃ line ∈ _, _))

end CacheNode

section Writeback
variable (x : CacheNode Name Key Val) (key : Key) (line : CacheLine Val)

@[simp] theorem CacheNode.writeback_fst : (x.writeback key line).1 = line.writeback := by
  unfold writeback CacheLine.writeback
  split <;> rfl

@[simp] theorem CacheNode.writeback_store : (x.writeback key line).2.store = x.store := by
  unfold writeback
  split <;> rfl

@[simp] theorem CacheNode.writeback_sharers : (x.writeback key line).2.sharers = x.sharers := by
  unfold writeback
  split <;> rfl

@[simp] theorem CacheNode.supply_fst : (x.supply key line).1 = line.demote := by
  unfold supply CacheLine.demote
  split
  · simp only [writeback_fst]
  · split <;> rfl

@[simp] theorem CacheNode.supply_store : (x.supply key line).2.store = x.store := by
  unfold supply
  split
  · exact x.writeback_store key line
  · split <;> rfl

@[simp] theorem CacheNode.supply_sharers : (x.supply key line).2.sharers = x.sharers := by
  unfold supply
  split
  · exact x.writeback_sharers key line
  · split <;> rfl

end Writeback

@[simp] theorem CacheLine.touch_state (line : CacheLine Val) : line.touch.state = line.state := rfl

@[simp] theorem CacheLine.touch_value (line : CacheLine Val) : line.touch.value = line.value := rfl

@[simp] theorem CacheLine.demote_value (line : CacheLine Val) : line.demote.value = line.value := by
  unfold CacheLine.demote CacheLine.writeback
  split
  · split <;> rfl
  · split <;> rfl

theorem CacheLine.demote_state (line : CacheLine Val) :
    line.demote.state = .shared ∨ line.demote.state = .invalid ∧ line.state = .invalid := by
  unfold CacheLine.demote
  cases h : line.state <;> simp [h]

namespace CacheNode
variable (x : CacheNode Name Key Val) (nodeId : Name) (key j : Key)

section Read
variable [DecidableEq Key]

theorem line?_read : (x.read key).2.store.line? j =
    if j = key then (x.store.line? key).map CacheLine.touch else x.store.line? j := by
  rw [← Store.line?_get]
  simp only [read]
  split
  · split <;> rfl
  · rfl

theorem read_fst : (x.read key).1 = (x.store.line? key).bind fun line =>
    if line.state = .invalid then none else some line.value := by
  simp only [read, Store.get_fst]
  cases x.store.line? key with
  | none => rfl
  | some line => by_cases h : line.state = .invalid <;> simp [h]

@[simp] theorem read_policy : (x.read key).2.store.policy = x.store.policy := by
  simp only [read]
  split
  · split <;> simp
  · simp

variable [DecidableEq Name]

theorem readFetched_store (value : Val) (sourceNode : Option Name) :
    (x.readFetched nodeId key value sourceNode).2.store = (x.store.put key
      { value := some value
        state := if sourceNode.isSome then .shared else .exclusive }).2 := by
  simp only [readFetched]
  split
  · rfl
  · simp only [addSharer, handleEviction]
    split <;> rfl

end Read

section Write
variable (value : Option Val) [DecidableEq Key]

theorem write_fst : (x.write key value).1 = true ↔ x.Owns key := by
  simp only [write, Store.get_fst, Owns]
  cases x.store.line? key with
  | none => simp
  | some line => cases h : line.state <;> simp [h]

theorem line?_write : (x.write key value).2.store.line? j =
    if j = key then (x.store.line? key).map fun line =>
      if line.state = .modified ∨ line.state = .exclusive then
        { line.touch with
          value := value, state := .modified, version := line.version + 1, dirty := true }
      else line.touch
    else x.store.line? j := by
  simp only [write, Store.get_fst]
  cases hl : x.store.line? key with
  | none =>
    by_cases hj : j = key <;> simp [Store.line?_get, hj, hl]
  | some line =>
    by_cases hj : j = key
    · cases h : line.state <;>
        simp [Store.line?_get, Store.line?_assign, hj, hl, h, CacheLine.touch]
    · cases h : line.state <;>
        simp [Store.line?_get, Store.line?_assign, hj, h, Ne.symm hj]

@[simp] theorem write_sharers : (x.write key value).2.sharers = x.sharers := by
  simp only [write]
  split
  · split
    · rfl
    · split <;> rfl
  · rfl

@[simp] theorem write_policy : (x.write key value).2.store.policy = x.store.policy := by
  simp only [write]
  split
  · split
    · simp
    · split <;> simp
  · simp

variable [DecidableEq Name]

@[simp] theorem write_targets (peers : List Name) :
    (x.write key value).2.targets nodeId j peers = x.targets nodeId j peers := by
  unfold targets sharersOf
  rw [write_sharers]

omit [DecidableEq Name] in
theorem writeInvalidated_store :
    (x.writeInvalidated nodeId key value).2.store =
      (x.store.put key { value := value, state := .modified, dirty := true }).2 := by
  simp only [writeInvalidated]
  split
  · rfl
  · simp only [handleEviction]
    split <;> rfl

end Write

section Handlers
variable [DecidableEq Key]

theorem line?_handleInvalidation :
    (x.handleInvalidation key).store.line? j = if j = key then none else x.store.line? j := by
  simp only [handleInvalidation, Store.get_fst]
  cases hl : x.store.line? key with
  | none =>
    by_cases hj : j = key <;> simp [Store.line?_get, hj, hl]
  | some line =>
    by_cases hj : j = key <;>
      simp [Store.line?_invalidate, Store.line?_assign, Store.line?_get, hj, Ne.symm]

variable [DecidableEq Name]

theorem line?_handleFetchRequest (requester : Name) :
    (x.handleFetchRequest nodeId key requester).2.store.line? j =
      if j = key then (x.store.line? key).map fun line => line.touch.demote
      else x.store.line? j := by
  simp only [handleFetchRequest, Store.get_fst]
  cases hl : x.store.line? key with
  | none =>
    by_cases hj : j = key <;> simp [Store.line?_get, hj, hl]
  | some line =>
    by_cases hi : line.state = .invalid
    · by_cases hj : j = key <;> simp [Store.line?_get, hj, hl, hi, CacheLine.demote]
    · by_cases hj : j = key <;>
        simp [Store.line?_get, Store.line?_assign, hj, Ne.symm, hi, addSharer, CacheLine.demote]

theorem handleFetchRequest_fst (requester : Name) {a : Answer Name Val}
    (h : (x.handleFetchRequest nodeId key requester).1 = a) :
    a = .notFound ∧ ¬ x.Holds key ∨
      ∃ line ∈ x.store.line? key, line.state ≠ .invalid ∧
        ∃ state, a = .found line.value state nodeId := by
  subst h
  simp only [handleFetchRequest, Store.get_fst, Holds]
  cases x.store.line? key with
  | none => simp
  | some line =>
    by_cases hi : line.state = .invalid
    · simp [hi]
    · right
      exact ⟨line, rfl, hi, line.touch.demote.state, by simp [hi]⟩

@[simp] theorem handleCoherenceMessage_policy (r : Request Name Key) :
    (x.handleCoherenceMessage nodeId r).2.store.policy = x.store.policy := by
  cases r with
  | fetch key requester =>
    simp only [handleCoherenceMessage, handleFetchRequest]
    split
    · simp
    · split <;> simp [addSharer]
  | invalidate key sender =>
    simp only [handleCoherenceMessage, handleInvalidation]
    split <;> simp

omit [DecidableEq Name] in
theorem line?_handleUpdate (value : Option Val) (version : Int) :
    (x.handleUpdate key value version).store.line? j =
      if j = key then (x.store.line? key).map fun line =>
        if line.state = .invalid then line.touch
        else { line.touch with value := value, version := version, state := .shared }
      else x.store.line? j := by
  simp only [handleUpdate, Store.get_fst]
  cases hl : x.store.line? key with
  | none =>
    by_cases hj : j = key <;> simp [Store.line?_get, hj, hl]
  | some line =>
    by_cases hi : line.state = .invalid
    · by_cases hj : j = key <;> simp [Store.line?_get, hj, hl, hi]
    · by_cases hj : j = key <;>
        simp [Store.line?_get, Store.line?_assign, hj, Ne.symm, hi]

end Handlers
end CacheNode
end DistSync.Cache
