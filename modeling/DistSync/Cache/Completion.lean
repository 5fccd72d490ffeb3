import DistSync.Cache.Local

/-! Writes that complete. A line that the node does not own is put in the store anew, which the
LRU policy does not do for a key that is there, and the LFU policy fails to do where it picks a
key for eviction that has been invalidated. -/
namespace DistSync.Cache
variable {Name Key Val : Type} [DecidableEq Key]

/-- The key that `put` picks for eviction: the least recently used one, or the first of the least
frequently used ones. -/
def Store.victim (s : Store Key Val) (key : Key) : Option Key :=
  match s with
  | lru c =>
    if c.cache.get? key = none ∧ size c.cache ≥ c.capacity then c.cache.entries.head?.map Prod.fst
    else none
  | lfu c =>
    if 0 < c.capacity ∧ c.cache.get? key = none ∧ size c.cache ≥ c.capacity then
      ((c.freqMap.get? c.minFreq).getD ∅).entries.head?.map Prod.fst
    else none

/-- A line of the key can be put: LRU has none, and the key picked for eviction is stored, which
LFU does not see to. -/
def Store.Takes (s : Store Key Val) (key : Key) : Prop :=
  (s.policy = .lru → s.line? key = none) ∧ ∀ k ∈ s.victim key, s.line? k ≠ none

/-- `write` with no other step of the node in between. -/
def CacheNode.completeWrite (x : CacheNode Name Key Val) (nodeId : Name) (key : Key)
    (value : Option Val) : Except Raised Bool × CacheNode Name Key Val :=
  let r := x.write key value
  if r.1 then (.ok true, r.2)
  else
    let w := r.2.writeInvalidated nodeId key value
    (w.1.map fun _ => true, w.2)

/-- The write returns `True` and leaves a modified line with the value, which the next read
returns. -/
structure TakesEffect (x : CacheNode Name Key Val) (nodeId : Name) (key : Key)
    (value : Option Val) : Prop where
  returns : (x.completeWrite nodeId key value).1 = .ok true
  stored : ∃ line, (x.completeWrite nodeId key value).2.store.line? key = some line ∧
    line.value = value ∧ line.state = .modified ∧ line.dirty = true
  read : ∀ v, value = some v →
    ((x.completeWrite nodeId key value).2.read key).1 = some (some v)

section Put
variable {s : Store Key Val} {key : Key} (line : CacheLine Val)

theorem Store.victim_of_stored (h : s.line? key ≠ none) :
    s.victim key = none := by
  cases s with
  | lru c => exact if_neg fun hx => h hx.1
  | lfu c => exact if_neg fun hx => h hx.2.1

theorem Store.put_of_victim {k : Key} (h : s.victim key = some k) :
    (s.put key line).1 = if s.line? k = none then .error .keyError else .ok (some k) := by
  cases s with
  | lru c =>
    obtain ⟨⟨hl, hsize⟩, hhead⟩ := Option.ite_none_right_eq_some.mp h
    obtain ⟨old, rest, hpop, hk⟩ := Dict.popFirst_of_head hhead
    simp [put, LRUCache.put, line?, cache, hl, hsize, hpop, hk]
  | lfu c =>
    obtain ⟨⟨hcap, hl, hsize⟩, hhead⟩ := Option.ite_none_right_eq_some.mp h
    obtain ⟨old, rest, hpop, -⟩ := Dict.popFirst_of_head hhead
    simp only [put, LFUCache.put, line?, cache, not_le.mpr hcap, if_false, hl, hsize, if_true, hpop]
    split <;> rename_i hk <;> simp [hk]

theorem Store.put_of_no_victim (h : s.victim key = none) : (s.put key line).1 = .ok none ∨
    s.policy = .lru ∧ s.capacity ≤ 0 ∧ (s.put key line).1 = .error .keyError := by
  cases s with
  | lru c =>
    simp only [put, LRUCache.put, policy, capacity]
    cases hl : c.cache.get? key with
    | some l => simp
    | none =>
      by_cases hsize : size c.cache ≥ c.capacity
      · have hhead : c.cache.entries.head?.map Prod.fst = none := by simpa [victim, hl, hsize] using h
        have hempty : c.cache.entries = [] := by simpa using hhead
        have hzero : size c.cache = 0 := by simp [size, hempty]
        simp [hsize, Dict.popFirst_of_empty hhead, ← hzero]
      · simp [hsize]
  | lfu c =>
    simp only [put, LFUCache.put, policy, capacity]
    by_cases hcap : c.capacity ≤ 0
    · simp [hcap]
    · cases hl : c.cache.get? key with
      | some l => simp [hcap]
      | none =>
        by_cases hsize : size c.cache ≥ c.capacity
        · have hhead : (((c.freqMap.get? c.minFreq).getD ∅).entries.head?.map Prod.fst) = none := by
            simpa [victim, hl, hsize, not_le.mp hcap] using h
          simp [hcap, hsize, Dict.popFirst_of_empty hhead]
        · simp [hcap, hsize]

/-- `put` raises just if the key that it picks is stored no more. -/
theorem Store.put_raised_iff (hcap : 0 < s.capacity) :
    (s.put key line).1 = .error .keyError ↔ ∃ k ∈ s.victim key, s.line? k = none := by
  cases hv : s.victim key with
  | none =>
    cases put_of_no_victim line hv with
    | inl hr => simp [hr]
    | inr hr => exact absurd hcap (not_lt.mpr hr.2.1)
  | some k => simp [put_of_victim line hv]

theorem Store.put_takes (hcap : 0 < s.capacity) (h : s.Takes key) :
    (∃ o, (s.put key line).1 = .ok o) ∧ (s.put key line).2.line? key = some line := by
  cases s.put_cases key line with
  | raised hr =>
    obtain ⟨k, hk, hnone⟩ := (put_raised_iff line hcap).mp hr
    exact absurd hnone (h.2 k hk)
  | kept hr hlines hkept =>
    cases hkept with
    | inl hlru => exact absurd (h.1 hlru.1) hlru.2
    | inr hlfu => exact absurd hcap (not_lt.mpr hlfu.2)
  | stored hr hlines => exact ⟨⟨_, hr⟩, by rw [hlines, if_pos rfl]⟩
  | evicted k hr hlines => exact ⟨⟨_, hr⟩, by rw [hlines, if_pos rfl]⟩

theorem Store.put_not_takes (hcap : 0 < s.capacity) (h : ¬ s.Takes key) :
    (s.put key line).1 = .error .keyError ∨ (s.put key line).2.line? key = s.line? key := by
  have htakes (hbind : s.policy = .lru → s.line? key = none) {o : Option Key}
      (hr : (s.put key line).1 = .ok o) : s.Takes key := by
    refine ⟨hbind, fun k hk hnone => ?_⟩
    rw [(put_raised_iff line hcap).mpr ⟨k, hk, hnone⟩] at hr
    cases hr
  cases s.put_cases key line with
  | raised hr => exact .inl hr
  | kept hr hlines => exact .inr (hlines key)
  | stored hr _ hbind => exact absurd (htakes hbind hr) h
  | evicted k hr _ hbind => exact absurd (htakes hbind hr) h

end Put

section Write
variable {x : CacheNode Name Key Val} (nodeId : Name) (key : Key) (value : Option Val)

theorem CacheNode.writeInvalidated_fst : (x.writeInvalidated nodeId key value).1 =
    (x.store.put key { value := value, state := .modified, dirty := true }).1.map fun _ => () := by
  simp only [CacheNode.writeInvalidated]
  split <;> rename_i h <;> rw [h] <;> rfl

theorem CacheNode.read_stored {line : CacheLine Val} (hl : x.store.line? key = some line)
    (hs : line.state = .modified) : (x.read key).1 = some line.value := by
  rw [CacheNode.read_fst, hl]
  simp [hs]

theorem Store.get_of_none {s : Store Key Val} (h : s.line? key = none) : (s.get key).2 = s := by
  cases s with
  | lru c =>
    have hnone : c.cache.get? key = none := h
    simp only [get, LRUCache.get, hnone]
  | lfu c =>
    have hnone : c.cache.get? key = none := h
    simp only [get, LFUCache.get, hnone]

theorem Store.capacity_get (s : Store Key Val) : (s.get key).2.capacity = s.capacity := by
  cases s with
  | lru c =>
    simp only [get, LRUCache.get]
    split <;> rfl
  | lfu c =>
    simp only [get, LFUCache.get]
    split
    · rfl
    · simp only [capacity, LFUCache.updateFreq, LFUCache.enter]
      split <;> rfl

theorem CacheNode.write_store (h : ¬ x.Owns key) :
    (x.write key value).2.store = (x.store.get key).2 := by
  have hno : ¬ (x.write key value).1 = true := fun ht => h ((x.write_fst key value).mp ht)
  simp only [CacheNode.write] at hno ⊢
  split
  · rename_i line hl
    rw [hl] at hno
    split
    · simp_all
    · split <;> simp_all
  · rfl

theorem Store.takes_get (s : Store Key Val) : (s.get key).2.Takes key ↔ s.Takes key := by
  cases hl : s.line? key with
  | none => rw [s.get_of_none key hl]
  | some line =>
    have hl' : (s.get key).2.line? key ≠ none := by simp [line?_get, hl]
    have hstored : s.line? key ≠ none := by simp [hl]
    simp [Takes, victim_of_stored hl', victim_of_stored hstored, hl', hstored]

theorem TakesEffect.of_stored (hr : (x.completeWrite nodeId key value).1 = .ok true)
    {line : CacheLine Val} (hl : (x.completeWrite nodeId key value).2.store.line? key = some line)
    (hv : line.value = value) (hs : line.state = .modified) (hd : line.dirty = true) :
    TakesEffect x nodeId key value where
  returns := hr
  stored := ⟨line, hl, hv, hs, hd⟩
  read v hvalue := by rw [CacheNode.read_stored key hl hs, hv, hvalue]

theorem CacheNode.completeWrite_owned (h : x.Owns key) :
    x.completeWrite nodeId key value = (.ok true, (x.write key value).2) :=
  if_pos ((x.write_fst key value).mpr h)

theorem CacheNode.completeWrite_put (h : ¬ x.Owns key) :
    (x.completeWrite nodeId key value).1 = ((x.store.get key).2.put key
        { value := value, state := .modified, dirty := true }).1.map (fun _ => true) ∧
      (x.completeWrite nodeId key value).2.store = ((x.store.get key).2.put key
        { value := value, state := .modified, dirty := true }).2 := by
  have hno : ¬ (x.write key value).1 = true := fun ht => h ((x.write_fst key value).mp ht)
  rw [completeWrite, if_neg hno]
  dsimp only
  rw [CacheNode.writeInvalidated_fst, CacheNode.writeInvalidated_store,
    CacheNode.write_store key value h]
  refine ⟨?_, rfl⟩
  cases ((x.store.get key).2.put key { value := value, state := .modified, dirty := true }).1 <;>
    rfl

/-- With a capacity a write takes effect just if the node owns the line or its store can take
one. -/
theorem takesEffect_iff (hcap : 0 < x.store.capacity) :
    TakesEffect x nodeId key value ↔ x.Owns key ∨ x.store.Takes key := by
  by_cases howns : x.Owns key
  · refine iff_of_true ?_ (.inl howns)
    have hw := CacheNode.completeWrite_owned nodeId key value howns
    obtain ⟨line, hl, hs⟩ := howns
    have hline := x.line?_write key key value
    rw [if_pos rfl, Option.mem_def.mp hl, Option.map_some, if_pos hs] at hline
    refine .of_stored nodeId key value (by rw [hw]) (by rw [hw]; exact hline) rfl rfl rfl
  · obtain ⟨hr, hstore⟩ := CacheNode.completeWrite_put nodeId key value howns
    have hcap' : 0 < (x.store.get key).2.capacity := by rwa [Store.capacity_get]
    rw [or_iff_right howns, ← Store.takes_get]
    constructor
    · intro h
      by_contra hno
      cases Store.put_not_takes { value := value, state := .modified, dirty := true } hcap' hno with
      | inl herror =>
        have hreturns := h.returns
        rw [hr, herror] at hreturns
        cases hreturns
      | inr hsame =>
        obtain ⟨line, hl, -, hs, -⟩ := h.stored
        rw [hstore, hsame, Store.line?_get, if_pos rfl] at hl
        obtain ⟨old, hold, rfl⟩ := Option.map_eq_some_iff.mp hl
        exact howns ⟨old, hold, .inl hs⟩
    · intro htakes
      obtain ⟨⟨o, ho⟩, hl⟩ :=
        Store.put_takes { value := value, state := .modified, dirty := true } hcap' htakes
      refine .of_stored nodeId key value ?_ (hstore ▸ hl) rfl rfl rfl
      rw [hr, ho]
      rfl

end Write

/-- An LRU node fetches a line, which is shared then, and writes it. -/
def fetchedLine : List (LocalAction Nat Nat Nat) := [.read 0, .found 0 1 (some 1)]

theorem not_takesEffect_fetchedLine : ∃ s, (localNode 0 .lru 10).run (localNode 0 .lru 10).init
    fetchedLine = some s ∧ 0 < s.node.store.capacity ∧ ¬ TakesEffect s.node 0 0 (some 2) := by
  have hrun : ((localNode 0 .lru 10).run (localNode 0 .lru 10).init fetchedLine).any (fun s =>
      0 < s.node.store.capacity ∧
        ∃ line ∈ (s.node.completeWrite 0 0 (some 2)).2.store.line? 0, line.state = .shared) =
      true := by
    decide +kernel
  obtain ⟨s, hs, hx⟩ := (Option.any_eq_true ..).mp hrun
  obtain ⟨hcap, line, hl, hsh⟩ := of_decide_eq_true hx
  refine ⟨s, hs, hcap, fun h => ?_⟩
  obtain ⟨line', hl', -, hm, -⟩ := h.stored
  cases hl'.symm.trans hl
  cases hm.symm.trans hsh

theorem takesEffect_fetchedLine : ∃ s, (localNode 0 .lfu 10).run (localNode 0 .lfu 10).init
    fetchedLine = some s ∧
      (∃ line ∈ s.node.store.line? 0, line.value = some 1 ∧ line.state = .shared) ∧
      TakesEffect s.node 0 0 (some 2) := by
  have hrun : ((localNode 0 .lfu 10).run (localNode 0 .lfu 10).init fetchedLine).any (fun s =>
      0 < s.node.store.capacity ∧ s.node.store.policy = .lfu ∧
        ∃ line ∈ s.node.store.line? 0, line.value = some 1 ∧ line.state = .shared) = true := by
    decide +kernel
  obtain ⟨s, hs, hx⟩ := (Option.any_eq_true ..).mp hrun
  obtain ⟨hcap, hpolicy, line, hl, hline⟩ := of_decide_eq_true hx
  have htakes : s.node.store.Takes 0 := by
    refine ⟨fun hp => ?_, fun k hk => ?_⟩
    · cases hp.symm.trans hpolicy
    · rw [Store.victim_of_stored (by simp [Option.mem_def.mp hl])] at hk
      cases hk
  exact ⟨s, hs, ⟨line, hl, hline⟩, (takesEffect_iff 0 0 (some 2) hcap).mpr (.inr htakes)⟩

end DistSync.Cache
