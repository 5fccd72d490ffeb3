import Mathlib.Data.Multiset.AddSub
import DistSync.Cache.Node
import DistSync.Run

/-! One cache node by itself. Its coroutines pause when they ask the peers, whose answers and
messages may be anything and come at any time. State and dirty flag of its lines change together
in all it does but an update, which makes a line shared and leaves it dirty. -/
namespace DistSync.Cache

/-- A coroutine that waits for the peers. -/
inductive Paused (Key Val : Type) where
  | read (key : Key)
  | write (key : Key) (value : Option Val)
  | delete (key : Key)
deriving DecidableEq

structure LocalNode (Name Key Val : Type) where
  node : CacheNode Name Key Val
  pending : Multiset (Paused Key Val) := 0

/-- `found` and `notFound` are how a `read` goes on, `invalidated` how a `write` and `deleted` how
a DELETE does; the last three are the handlers. -/
inductive LocalAction (Name Key Val : Type) where
  | read (key : Key)
  | found (key : Key) (value : Val) (sourceNode : Option Name)
  | notFound (key : Key)
  | write (key : Key) (value : Option Val)
  | invalidated (key : Key) (value : Option Val)
  | delete (key : Key)
  | deleted (key : Key)
  | invalidate (key : Key)
  | fetch (key : Key) (requester : Name)
  | update (key : Key) (value : Option Val) (version : Int)

variable {Name Key Val : Type} [DecidableEq Name] [DecidableEq Key] [DecidableEq Val]

def LocalAction.act (nodeId : Name) (x : CacheNode Name Key Val) :
    LocalAction Name Key Val → CacheNode Name Key Val
  | read key => (x.read key).2
  | found key value sourceNode => (x.readFetched nodeId key value sourceNode).2
  | notFound _ => x
  | write key value => (x.write key value).2
  | invalidated key value => (x.writeInvalidated nodeId key value).2
  | delete _ => x
  | deleted key => x.deleteInvalidated key
  | invalidate key => x.handleInvalidation key
  | fetch key requester => (x.handleFetchRequest nodeId key requester).2
  | update key value version => x.handleUpdate key value version

namespace LocalNode
variable (s : LocalNode Name Key Val)

def finish (p : Paused Key Val) : Option (Multiset (Paused Key Val)) :=
  if p ∈ s.pending then some (s.pending.erase p) else none

/-- Who waits after the action, if it can happen. -/
def waiting : LocalAction Name Key Val → Option (Multiset (Paused Key Val))
  | .read key =>
    some (if (s.node.read key).1.isSome then s.pending else .read key ::ₘ s.pending)
  | .found key _ _ => s.finish (.read key)
  | .notFound key => s.finish (.read key)
  | .write key value =>
    some (if (s.node.write key value).1 then s.pending else .write key value ::ₘ s.pending)
  | .invalidated key value => s.finish (.write key value)
  | .delete key => some (.delete key ::ₘ s.pending)
  | .deleted key => s.finish (.delete key)
  | .invalidate _ => some s.pending
  | .fetch _ _ => some s.pending
  | .update _ _ _ => some s.pending

end LocalNode

def localNode (nodeId : Name) (policy : Policy) (capacity : Int) :
    System (LocalNode Name Key Val) (LocalAction Name Key Val) where
  init := { node := { store := .new policy capacity } }
  step s a := (s.waiting a).map fun pending => { node := a.act nodeId s.node, pending := pending }

theorem localNode_step {nodeId : Name} {policy : Policy} {capacity : Int}
    {s t : LocalNode Name Key Val} {a : LocalAction Name Key Val}
    (h : (localNode nodeId policy capacity).step s a = some t) : t.node = a.act nodeId s.node := by
  obtain ⟨pending, -, rfl⟩ := Option.map_eq_some_iff.mp h
  rfl

def CacheLine.Sound (line : CacheLine Val) : Prop :=
  (line.dirty = true ↔ line.state = .modified) ∧ line.state ≠ .invalid

def CacheNode.Sound (x : CacheNode Name Key Val) : Prop :=
  ∀ key line, x.store.line? key = some line → line.Sound

def LocalNode.Sound (s : LocalNode Name Key Val) : Prop := s.node.Sound

/-- An update does not reach a modified line. -/
def SparesModified (x : CacheNode Name Key Val) : LocalAction Name Key Val → Prop
  | .update key _ _ => ∀ line ∈ x.store.line? key, line.state ≠ .modified
  | _ => True

section Lines
variable {line : CacheLine Val}
omit [DecidableEq Val]

theorem CacheLine.Sound.touch (h : line.Sound) : line.touch.Sound := h

theorem CacheLine.Sound.demote (h : line.Sound) : line.demote.Sound := by
  obtain ⟨hd, hi⟩ := h
  unfold CacheLine.demote CacheLine.writeback CacheLine.Sound
  cases hs : line.state <;> simp_all

theorem CacheLine.Sound.update (h : line.Sound) (value : Option Val) (version : Int) :
    ({ line with value := value, version := version, state := .shared } : CacheLine Val).Sound ↔
      line.state ≠ .modified := by
  simp [CacheLine.Sound, ← h.1]

end Lines

namespace CacheNode.Sound
variable {x : CacheNode Name Key Val} (h : x.Sound) (nodeId : Name)
omit [DecidableEq Val]
include h

omit [DecidableEq Name] in
theorem put {x' : CacheNode Name Key Val} {key : Key} {line : CacheLine Val}
    (hx : x'.store = (x.store.put key line).2) (hline : line.Sound) : x'.Sound := by
  intro j l hl
  rw [hx] at hl
  cases Store.line?_put line hl with
  | inl hl => exact h j l hl
  | inr hl => exact hl.2 ▸ hline

omit [DecidableEq Name] in
theorem change {x' : CacheNode Name Key Val} {key : Key} {f : CacheLine Val → CacheLine Val}
    (hx : ∀ j, x'.store.line? j =
      if j = key then (x.store.line? key).map f else x.store.line? j)
    (hf : ∀ line, x.store.line? key = some line → (f line).Sound) : x'.Sound := by
  intro j l hl
  rw [hx] at hl
  split at hl
  · obtain ⟨line, hline, rfl⟩ := Option.map_eq_some_iff.mp hl
    exact hf line hline
  · exact h j l hl

omit [DecidableEq Name] in
theorem remove {x' : CacheNode Name Key Val} {key : Key}
    (hx : ∀ j, x'.store.line? j = if j = key then none else x.store.line? j) : x'.Sound := by
  intro j l hl
  rw [hx] at hl
  split at hl
  · cases hl
  · exact h j l hl

/-- Every action keeps dirty just the modified lines, unless it updates one of these. -/
theorem act_iff (a : LocalAction Name Key Val) :
    (a.act nodeId x).Sound ↔ SparesModified x a := by
  cases a with
  | read key =>
    exact iff_of_true (h.change (fun j => x.line?_read key j) fun l hl => (h key l hl).touch) trivial
  | found key value sourceNode =>
    refine iff_of_true (h.put (x.readFetched_store nodeId key value sourceNode) ?_) trivial
    cases sourceNode <;> simp [CacheLine.Sound]
  | notFound key => exact iff_of_true h trivial
  | write key value =>
    refine iff_of_true (h.change (fun j => x.line?_write key j value) fun l hl => ?_) trivial
    split
    · simp [CacheLine.Sound]
    · exact (h key l hl).touch
  | invalidated key value =>
    refine iff_of_true (h.put (x.writeInvalidated_store nodeId key value) ?_) trivial
    simp [CacheLine.Sound]
  | delete key => exact iff_of_true h trivial
  | deleted key => exact iff_of_true (h.remove fun j => Store.line?_invalidate ..) trivial
  | invalidate key => exact iff_of_true (h.remove fun j => x.line?_handleInvalidation key j) trivial
  | fetch key requester =>
    exact iff_of_true (h.change (fun j => x.line?_handleFetchRequest nodeId key j requester)
      fun l hl => (h key l hl).touch.demote) trivial
  | update key value version =>
    have hlines (j : Key) := x.line?_handleUpdate key j value version
    have hchanged (l : CacheLine Val) (hl : x.store.line? key = some l) :
        (if l.state = .invalid then l.touch
          else { l.touch with value := value, version := version, state := .shared }).Sound ↔
            l.state ≠ .modified := by
      rw [if_neg (h key l hl).2]
      exact (h key l hl).touch.update value version
    constructor
    · intro h' l hl
      refine (hchanged l hl).mp (h' key _ ?_)
      rw [LocalAction.act, hlines, if_pos rfl, Option.mem_def.mp hl]
      rfl
    · exact fun hg => h.change hlines fun l hl => (hchanged l hl).mpr (hg l hl)

end CacheNode.Sound

/-- In a run of a node dirty are just the modified lines, and none is invalid, exactly if no
update reaches a modified line. -/
theorem sound_along_iff (nodeId : Name) (policy : Policy) (capacity : Int)
    (as : List (LocalAction Name Key Val)) :
    (localNode nodeId policy capacity).Along (fun _ _ t => t.Sound)
        (localNode nodeId policy capacity).init as ↔
      (localNode nodeId policy capacity).Along (fun s a _ => SparesModified s.node a)
        (localNode nodeId policy capacity).init as := by
  refine System.along_invariant_iff (I := LocalNode.Sound) (fun s a t _ h ht => ?_) .init
    (fun key line hl => ?_) as
  · rw [LocalNode.Sound, localNode_step ht]
    exact CacheNode.Sound.act_iff h nodeId a
  · rw [localNode, Store.line?_new] at hl
    cases hl

/-- A node gets an update for a line that it has written. -/
def updatedModified : List (LocalAction Nat Nat Nat) :=
  [.write 0 (some 1), .invalidated 0 (some 1), .update 0 (some 2) 2]

theorem not_sound_updatedModified : ∃ s, (localNode 0 .lru 10).run (localNode 0 .lru 10).init
    updatedModified = some s ∧ ¬ s.Sound := by
  have hrun : ((localNode 0 .lru 10).run (localNode 0 .lru 10).init updatedModified).any (fun s =>
      ∃ line ∈ s.node.store.line? 0, line.dirty = true ∧ line.state = .shared) = true := by
    decide +kernel
  obtain ⟨s, hs, hx⟩ := (Option.any_eq_true ..).mp hrun
  obtain ⟨line, hl, hd, hsh⟩ := of_decide_eq_true hx
  refine ⟨s, hs, fun h => ?_⟩
  rw [(h 0 line hl).1.mp hd] at hsh
  cases hsh

end DistSync.Cache
