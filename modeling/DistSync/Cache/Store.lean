import DistSync.Dict

/-! The lines that a node stores and the two replacement policies. A line is mutable: whoever
has got it from the store changes it there. The buckets of the LFU policy hold lines as well,
but only their keys are read. -/
namespace DistSync.Cache

inductive MESIState where
  | modified
  | exclusive
  | shared
  | invalid
deriving DecidableEq

/-- A value is `none` where Python has `None`. -/
structure CacheLine (Val : Type) where
  value : Option Val
  state : MESIState := .exclusive
  accessCount : Nat := 1
  dirty : Bool := false
  version : Int := 1

def CacheLine.touch {Val : Type} (line : CacheLine Val) : CacheLine Val :=
  { line with accessCount := line.accessCount + 1 }

/-- `put` and `del` raise `KeyError`. -/
inductive Raised where
  | keyError

structure LRUCache (Key Val : Type) where
  capacity : Int
  cache : Dict Key (CacheLine Val) := ∅

structure LFUCache (Key Val : Type) where
  capacity : Int
  cache : Dict Key (CacheLine Val) := ∅
  freqMap : Dict Nat (Dict Key Unit) := ∅
  minFreq : Nat := 0

/-- `len(d)`. -/
def size {Key ν : Type} (d : Dict Key ν) : Int := d.entries.length

theorem size_eq {Key ν : Type} (d : Dict Key ν) : size d = d.keys.length := by
  rw [size, Dict.keys, List.length_map]

section Policies
variable {Key Val : Type} [DecidableEq Key]

namespace LRUCache
variable (c : LRUCache Key Val) (key : Key)

def get : Option (CacheLine Val) × LRUCache Key Val :=
  match c.cache.get? key with
  | none => (none, c)
  | some line => (some line.touch, { c with cache := (c.cache.moveToEnd key).set key line.touch })

/-- Put a cache line, with the key that is evicted for it. -/
def put (line : CacheLine Val) : Except Raised (Option Key) × LRUCache Key Val :=
  match c.cache.get? key with
  | some _ => (.ok none, { c with cache := c.cache.moveToEnd key })
  | none =>
    if size c.cache ≥ c.capacity then
      match c.cache.popFirst with
      | none => (.error .keyError, c)
      | some (e, rest) => (.ok (some e.1), { c with cache := rest.set key line })
    else (.ok none, { c with cache := c.cache.set key line })

def invalidate : Option (CacheLine Val) × LRUCache Key Val :=
  (c.cache.get? key, { c with cache := c.cache.erase key })

end LRUCache

namespace LFUCache
variable (c : LFUCache Key Val) (key : Key)

/-- `_freq_map[freq][key] = line`, in a new bucket if there is none. -/
def enter (freq : Nat) : LFUCache Key Val :=
  { c with freqMap := c.freqMap.set freq (((c.freqMap.get? freq).getD ∅).set key ()) }

def updateFreq (line : CacheLine Val) : LFUCache Key Val :=
  let oldFreq := line.accessCount - 1
  let newFreq := line.accessCount
  let c :=
    match c.freqMap.get? oldFreq with
    | none => c
    | some bucket =>
      let bucket := bucket.erase key
      { c with
        freqMap := c.freqMap.set oldFreq bucket
        minFreq := if bucket.entries = [] ∧ c.minFreq = oldFreq then newFreq else c.minFreq }
  c.enter key newFreq

def get : Option (CacheLine Val) × LFUCache Key Val :=
  match c.cache.get? key with
  | none => (none, c)
  | some line =>
    let c := c.updateFreq key line
    (some line.touch, { c with cache := c.cache.set key line.touch })

/-- `_cache[key] = line` of a new key, which goes to the bucket of frequency 1. -/
def add (line : CacheLine Val) : LFUCache Key Val :=
  { c with cache := c.cache.set key line, minFreq := 1 }.enter key 1

def put (line : CacheLine Val) : Except Raised (Option Key) × LFUCache Key Val :=
  if c.capacity ≤ 0 then (.ok none, c)
  else
    match c.cache.get? key with
    | some _ => (.ok none, { c with cache := c.cache.set key line }.updateFreq key line)
    | none =>
      if size c.cache ≥ c.capacity then
        match ((c.freqMap.get? c.minFreq).getD ∅).popFirst with
        | none => (.ok none, c.add key line)
        | some (e, bucket) =>
          let c := { c with freqMap := c.freqMap.set c.minFreq bucket }
          match c.cache.get? e.1 with
          -- the key was invalidated, which leaves it in its bucket
          | none => (.error .keyError, c)
          | some _ => (.ok (some e.1), { c with cache := c.cache.erase e.1 }.add key line)
      else (.ok none, c.add key line)

def invalidate : Option (CacheLine Val) × LFUCache Key Val :=
  (c.cache.get? key, { c with cache := c.cache.erase key })

end LFUCache

inductive Policy where
  | lru
  | lfu
deriving DecidableEq

/-- `_store`. -/
inductive Store (Key Val : Type) where
  | lru (c : LRUCache Key Val)
  | lfu (c : LFUCache Key Val)

namespace Store
variable (s : Store Key Val) (key : Key)

def new (policy : Policy) (capacity : Int) : Store Key Val :=
  match policy with
  | .lru => .lru { capacity := capacity }
  | .lfu => .lfu { capacity := capacity }

def policy : Store Key Val → Policy
  | lru _ => .lru
  | lfu _ => .lfu

def capacity : Store Key Val → Int
  | lru c => c.capacity
  | lfu c => c.capacity

/-- `_cache`. -/
def cache : Store Key Val → Dict Key (CacheLine Val)
  | lru c => c.cache
  | lfu c => c.cache

def line? : Option (CacheLine Val) := s.cache.get? key

def get : Option (CacheLine Val) × Store Key Val :=
  match s with
  | lru c => ((c.get key).1, .lru (c.get key).2)
  | lfu c => ((c.get key).1, .lfu (c.get key).2)

def put (line : CacheLine Val) : Except Raised (Option Key) × Store Key Val :=
  match s with
  | lru c => ((c.put key line).1, .lru (c.put key line).2)
  | lfu c => ((c.put key line).1, .lfu (c.put key line).2)

def invalidate : Option (CacheLine Val) × Store Key Val :=
  match s with
  | lru c => ((c.invalidate key).1, .lru (c.invalidate key).2)
  | lfu c => ((c.invalidate key).1, .lfu (c.invalidate key).2)

/-- What changes in the stored line when its holder assigns to its fields. -/
def assign (line : CacheLine Val) : Store Key Val :=
  match s with
  | lru c => .lru { c with cache := c.cache.set key line }
  | lfu c => .lfu { c with cache := c.cache.set key line }

/-- Whether `put` of the key evicts another one; this does not depend on the line. -/
def evicts : Bool :=
  match (s.put key { value := none }).1 with
  | .ok (some _) => true
  | _ => false

def raises : Bool :=
  match (s.put key { value := none }).1 with
  | .error _ => true
  | _ => false

/-- `put` of the key raises no error and is going to store the line: the LRU policy leaves a
line that is there, the LFU policy stores nothing if its capacity is 0. -/
def Binds : Prop :=
  s.raises key = false ∧ match s.policy with
    | .lru => s.line? key = none
    | .lfu => 0 < s.capacity

instance : Decidable (s.Binds key) :=
  match h : s.policy with
  | .lru => decidable_of_iff (s.raises key = false ∧ s.line? key = none) (by simp [Binds, h])
  | .lfu => decidable_of_iff (s.raises key = false ∧ 0 < s.capacity) (by simp [Binds, h])

def Accepts : Prop := 0 < s.capacity ∧ s.raises key = false

instance : Decidable (s.Accepts key) := inferInstanceAs (Decidable (_ ∧ _))

end Store

section Lines
variable (c : LFUCache Key Val) (key : Key)

@[simp] theorem LFUCache.enter_cache (freq : Nat) : (c.enter key freq).cache = c.cache := rfl

@[simp] theorem LFUCache.updateFreq_cache (line : CacheLine Val) :
    (c.updateFreq key line).cache = c.cache := by
  simp only [updateFreq, enter_cache]
  split <;> rfl

@[simp] theorem LFUCache.add_cache (line : CacheLine Val) :
    (c.add key line).cache = c.cache.set key line := rfl

end Lines

theorem LRUCache.get_fst (c : LRUCache Key Val) (key : Key) :
    (c.get key).1 = (c.cache.get? key).map CacheLine.touch := by
  unfold get
  cases c.cache.get? key <;> rfl

theorem LFUCache.get_fst (c : LFUCache Key Val) (key : Key) :
    (c.get key).1 = (c.cache.get? key).map CacheLine.touch := by
  unfold get
  cases c.cache.get? key <;> rfl

namespace Store
variable (s : Store Key Val) (key j : Key) (line : CacheLine Val)

@[simp] theorem line?_new (policy : Policy) (capacity : Int) :
    (new policy capacity : Store Key Val).line? key = none := by
  cases policy <;> rfl

theorem get_fst : (s.get key).1 = (s.line? key).map CacheLine.touch := by
  cases s with
  | lru c => exact c.get_fst key
  | lfu c => exact c.get_fst key

theorem line?_get :
    (s.get key).2.line? j = if j = key then (s.line? key).map CacheLine.touch else s.line? j := by
  cases s with
  | lru c =>
    simp only [get, LRUCache.get, line?, cache]
    cases h : c.cache.get? key with
    | none =>
      by_cases hj : j = key
      · simp [hj, h]
      · simp [hj]
    | some line => by_cases hj : j = key <;> simp [Dict.get?_set, hj, Ne.symm]
  | lfu c =>
    simp only [get, LFUCache.get, line?, cache]
    cases h : c.cache.get? key with
    | none =>
      by_cases hj : j = key
      · simp [hj, h]
      · simp [hj]
    | some line => by_cases hj : j = key <;> simp [Dict.get?_set, hj, Ne.symm]

theorem line?_invalidate :
    (s.invalidate key).2.line? j = if j = key then none else s.line? j := by
  cases s <;> exact Dict.get?_erase ..

theorem line?_assign : (s.assign key line).line? j = if key = j then some line else s.line? j := by
  cases s <;> exact Dict.get?_set ..

@[simp] theorem policy_get : (s.get key).2.policy = s.policy := by
  cases s <;> rfl

@[simp] theorem policy_invalidate : (s.invalidate key).2.policy = s.policy := by
  cases s <;> rfl

@[simp] theorem policy_assign : (s.assign key line).policy = s.policy := by
  cases s <;> rfl

@[simp] theorem policy_put : (s.put key line).2.policy = s.policy := by
  cases s <;> rfl

/-- What `put` can do: raise, find the key bound or no capacity at all, store the line, or
store it in the place of another. -/
inductive PutCases (r : Except Raised (Option Key) × Store Key Val) : Prop
  | raised (hr : r.1 = .error .keyError) (hlines : ∀ j, r.2.line? j = s.line? j)
  | kept (hr : r.1 = .ok none) (hlines : ∀ j, r.2.line? j = s.line? j)
      (hkept : s.policy = .lru ∧ s.line? key ≠ none ∨ s.policy = .lfu ∧ s.capacity ≤ 0)
  | stored (hr : r.1 = .ok none)
      (hlines : ∀ j, r.2.line? j = if j = key then some line else s.line? j)
      (hbind : s.policy = .lru → s.line? key = none) (hcap : 0 < s.capacity)
  | evicted (k : Key) (hr : r.1 = .ok (some k)) (hlines : ∀ j, r.2.line? j =
        if j = key then some line else if j = k then none else s.line? j)
      (hbind : s.policy = .lru → s.line? key = none) (hcap : s.policy = .lfu → 0 < s.capacity)

theorem get?_set_eq {d : Dict Key (CacheLine Val)} (j : Key) :
    (d.set key line).get? j = if j = key then some line else d.get? j := by
  rw [Dict.get?_set]
  simp only [eq_comm]

theorem put_cases : s.PutCases key line (s.put key line) := by
  cases s with
  | lru c =>
    simp only [put, LRUCache.put]
    cases hl : c.cache.get? key with
    | some l =>
      refine .kept rfl (fun j => Dict.get?_moveToEnd ..) (.inl ⟨rfl, ?_⟩)
      simp [line?, cache, hl]
    | none =>
      dsimp only
      split
      · cases hpop : c.cache.popFirst with
        | none => exact .raised rfl fun _ => rfl
        | some r =>
          refine .evicted r.1.1 rfl (fun j => ?_) (fun _ => hl) fun hp => by cases hp
          simp only [line?, cache, get?_set_eq, Dict.get?_popFirst hpop]
      · rename_i hsize
        have hcap : 0 < c.capacity := lt_of_le_of_lt (Int.natCast_nonneg _) (not_le.mp hsize)
        exact .stored rfl (fun j => get?_set_eq ..) (fun _ => hl) hcap
  | lfu c =>
    simp only [put, LFUCache.put]
    split
    · rename_i hcap
      exact .kept rfl (fun _ => rfl) (.inr ⟨rfl, hcap⟩)
    · rename_i hcap
      have hadd (c : LFUCache Key Val) (j : Key) : (lfu (c.add key line)).line? j =
          if j = key then some line else c.cache.get? j := get?_set_eq ..
      cases hl : c.cache.get? key with
      | some l =>
        refine .stored rfl (fun j => ?_) (fun hp => by cases hp) (not_le.mp hcap)
        simp only [line?, cache, LFUCache.updateFreq_cache, get?_set_eq]
      | none =>
        dsimp only
        split
        · cases hpop : ((c.freqMap.get? c.minFreq).getD ∅).popFirst with
          | none => exact .stored rfl (hadd c) (fun _ => hl) (not_le.mp hcap)
          | some r =>
            dsimp only
            cases c.cache.get? r.1.1 with
            | none => exact .raised rfl fun _ => rfl
            | some l =>
              refine .evicted r.1.1 rfl (fun j => ?_) (fun _ => hl) fun _ => not_le.mp hcap
              dsimp only
              rw [hadd, Dict.get?_erase]
              rfl
        · exact .stored rfl (hadd c) (fun _ => hl) (not_le.mp hcap)

variable {s key}

theorem put_fst (l l' : CacheLine Val) : (s.put key l).1 = (s.put key l').1 := by
  cases s with
  | lru c =>
    simp only [put, LRUCache.put]
    split
    · rfl
    · split
      · split <;> rfl
      · rfl
  | lfu c =>
    simp only [put, LFUCache.put]
    split
    · rfl
    · split
      · rfl
      · split
        · split
          · rfl
          · split <;> rfl
        · rfl

theorem put_ne_evicted (h : s.evicts key = false) (k : Key) :
    (s.put key line).1 ≠ .ok (some k) := by
  intro hput
  rw [put_fst line { value := none }] at hput
  simp [evicts, hput] at h

theorem put_ne_raised (h : s.raises key = false) (e : Raised) : (s.put key line).1 ≠ .error e := by
  intro hput
  rw [put_fst line { value := none }] at hput
  simp [raises, hput] at h

theorem line?_put_of_not_binds (h : ¬ s.Binds key) (j : Key) :
    (s.put key line).2.line? j = s.line? j := by
  have hok (o : Option Key) (hr : (s.put key line).1 = .ok o) : s.raises key = false := by
    rw [put_fst line { value := none }] at hr
    simp [raises, hr]
  cases s.put_cases key line with
  | raised _ hlines => exact hlines j
  | kept _ hlines => exact hlines j
  | stored hr _ hbind hcap =>
    refine absurd ⟨hok _ hr, ?_⟩ h
    split
    · rename_i hp
      exact hbind hp
    · exact hcap
  | evicted k hr _ hbind hcap =>
    refine absurd ⟨hok _ hr, ?_⟩ h
    split
    · rename_i hp
      exact hbind hp
    · rename_i hp
      exact hcap hp

theorem line?_put {j : Key} {l : CacheLine Val} (h : (s.put key line).2.line? j = some l) :
    s.line? j = some l ∨ j = key ∧ l = line := by
  cases s.put_cases key line with
  | raised _ hlines => exact .inl ((hlines j).symm.trans h)
  | kept _ hlines => exact .inl ((hlines j).symm.trans h)
  | stored _ hlines =>
    rw [hlines] at h
    split at h
    · rename_i hj
      exact .inr ⟨hj, (Option.some.inj h).symm⟩
    · exact .inl h
  | evicted _ _ hlines =>
    rw [hlines] at h
    split at h
    · rename_i hj
      exact .inr ⟨hj, (Option.some.inj h).symm⟩
    · split at h
      · cases h
      · exact .inl h

end Store
end Policies
end DistSync.Cache
