import DistSync.Cache.LRU

/-! The buckets of the LFU policy. The bucket of a key is set before its line is touched, so it is
one behind the access count, and lines that were got once share a bucket with those never got. -/
namespace DistSync.Cache
variable {Key Val : Type} [DecidableEq Key]

namespace LFUCache
variable (c : LFUCache Key Val) (key : Key)

def call : StoreCall Key Val → Outcome Key Val × LFUCache Key Val
  | .get key => (.found (c.get key).1, (c.get key).2)
  | .put key line => (.ofPut (c.put key line).1, (c.put key line).2)
  | .invalidate key => (.found (c.invalidate key).1, (c.invalidate key).2)

/-- `_freq_map.get(freq, OrderedDict())`. -/
def bucket (freq : Nat) : Dict Key Unit := (c.freqMap.get? freq).getD ∅

/-- The part of `_update_freq` that takes the key from its bucket. -/
def leave (oldFreq newFreq : Nat) : LFUCache Key Val :=
  match c.freqMap.get? oldFreq with
  | none => c
  | some bucket =>
    { c with
      freqMap := c.freqMap.set oldFreq (bucket.erase key)
      minFreq :=
        if (bucket.erase key).entries = [] ∧ c.minFreq = oldFreq then newFreq else c.minFreq }

/-- Each cached key is in one bucket, no other key is in any, and there is room for all. -/
structure Consistent : Prop where
  filed : ∀ k ∈ c.cache.keys, ∃! freq, k ∈ (c.bucket freq).keys
  cached : ∀ freq, ∀ k ∈ (c.bucket freq).keys, k ∈ c.cache.keys
  room : size c.cache ≤ c.capacity

section Buckets
variable {c key} {freq j : Nat} {line : CacheLine Val}

@[simp] theorem enter_minFreq : (c.enter key freq).minFreq = c.minFreq := rfl

@[simp] theorem enter_capacity : (c.enter key freq).capacity = c.capacity := rfl

theorem bucket_enter :
    (c.enter key freq).bucket j = if freq = j then (c.bucket j).set key () else c.bucket j := by
  rw [bucket, enter, Dict.get?_set]
  by_cases hj : freq = j
  · subst hj
    simp [bucket]
  · simp [bucket, hj]

theorem updateFreq_eq : c.updateFreq key line =
    (c.leave key (line.accessCount - 1) line.accessCount).enter key line.accessCount := rfl

theorem updateFreq_with (lines : Dict Key (CacheLine Val)) :
    { c with cache := lines }.updateFreq key line =
      { c.updateFreq key line with cache := lines } := by
  rw [updateFreq_eq, updateFreq_eq]
  simp only [leave, enter]
  split <;> rfl

@[simp] theorem leave_capacity {oldFreq newFreq : Nat} :
    (c.leave key oldFreq newFreq).capacity = c.capacity := by
  unfold leave
  split <;> rfl

@[simp] theorem updateFreq_capacity : (c.updateFreq key line).capacity = c.capacity := by
  rw [updateFreq_eq, enter_capacity, leave_capacity]

theorem bucket_leave {oldFreq newFreq : Nat} : (c.leave key oldFreq newFreq).bucket j =
    if oldFreq = j then (c.bucket j).erase key else c.bucket j := by
  unfold leave
  cases hb : c.freqMap.get? oldFreq with
  | none =>
    dsimp only
    split
    · rename_i hj
      rw [bucket, ← hj, hb]
      rfl
    · rfl
  | some b =>
    dsimp only [bucket]
    rw [Dict.get?_set]
    split
    · rename_i hj
      rw [← hj, hb]
      rfl
    · rfl

variable (c key j) in
theorem bucket_updateFreq (h : 1 ≤ line.accessCount) : (c.updateFreq key line).bucket j =
    if line.accessCount = j then (c.bucket j).set key ()
    else if line.accessCount - 1 = j then (c.bucket j).erase key else c.bucket j := by
  rw [updateFreq_eq, bucket_enter, bucket_leave]
  by_cases hj : line.accessCount = j
  · rw [if_pos hj, if_pos hj, if_neg (by omega)]
  · rw [if_neg hj, if_neg hj]

/-- The least frequency goes up if the last key of its bucket leaves. -/
theorem minFreq_leave {oldFreq newFreq : Nat} (h : (c.bucket c.minFreq).entries ≠ []) :
    (c.leave key oldFreq newFreq).minFreq =
      if ((c.bucket oldFreq).erase key).entries = [] ∧ c.minFreq = oldFreq then newFreq
      else c.minFreq := by
  unfold leave
  cases hb : c.freqMap.get? oldFreq with
  | none =>
    have hold : c.minFreq ≠ oldFreq := by
      intro hm
      rw [bucket, hm, hb] at h
      exact h rfl
    rw [if_neg fun hm => hold hm.2]
  | some b =>
    rw [bucket, hb]
    rfl

end Buckets

def freqOf (line : CacheLine Val) : Nat := max 1 (line.accessCount - 1)

/-- At most one `get` since the line was put. -/
def rarely (line : CacheLine Val) : Bool := line.accessCount ≤ 2

/-- The buckets are those of the access counts, the first one in the order of the cache. -/
structure Filed (c : LFUCache Key Val) : Prop where
  positive : 0 < c.capacity
  counted : ∀ k l, c.cache.get? k = some l → 1 ≤ l.accessCount
  filed : ∀ k freq, k ∈ (c.bucket freq).keys ↔ ∃ l, c.cache.get? k = some l ∧ freqOf l = freq
  first : (c.bucket 1).keys = c.cache.keysWhere rarely

/-- And `_min_freq` is the least frequency there is. -/
structure Tidy (c : LFUCache Key Val) : Prop extends c.Filed where
  room : size c.cache ≤ c.capacity
  occupied : ∀ k ∈ c.cache.keys, ∃ j l, c.cache.get? j = some l ∧ freqOf l = c.minFreq
  least : ∀ k l, c.cache.get? k = some l → c.minFreq ≤ freqOf l

theorem freqOf_eq_one {line : CacheLine Val} : freqOf line = 1 ↔ rarely line = true := by
  simp only [freqOf, rarely, decide_eq_true_eq]
  omega

theorem one_le_freqOf (line : CacheLine Val) : 1 ≤ freqOf line := le_max_left ..

variable {c} in
theorem Filed.consistent (h : c.Filed) (hroom : size c.cache ≤ c.capacity) : c.Consistent where
  filed := by
    intro k hk
    obtain ⟨l, hl⟩ := Option.isSome_iff_exists.mp ((Dict.mem_keys _).mp hk)
    refine ⟨freqOf l, (h.filed k _).mpr ⟨l, hl, rfl⟩, fun freq hf => ?_⟩
    obtain ⟨l', hl', hfreq⟩ := (h.filed k freq).mp hf
    cases hl.symm.trans hl'
    exact hfreq.symm
  cached := by
    intro freq k hk
    obtain ⟨l, hl, -⟩ := (h.filed k freq).mp hk
    exact (Dict.mem_keys _).mpr (by rw [hl]; rfl)
  room := hroom

namespace Tidy
variable {c key} (h : c.Tidy)
include h

section Refile
variable {l l' line : CacheLine Val} (hl : c.cache.get? key = some l)
  (hline : 1 ≤ line.accessCount)
  (hold : freqOf l = line.accessCount ∨ freqOf l = line.accessCount - 1)
  (hnew : freqOf l' = line.accessCount)
include hl hline hold hnew

theorem refile_filed (k : Key) (freq : Nat) :
    k ∈ ((c.updateFreq key line).bucket freq).keys ↔
      ∃ l'', (c.cache.set key l').get? k = some l'' ∧ freqOf l'' = freq := by
  rw [bucket_updateFreq c key freq hline, Dict.get?_set]
  have hk := h.filed k freq
  by_cases hkey : key = k
  · subst hkey
    rw [hl] at hk
    simp only [if_pos, Option.some.injEq, exists_eq_left', hnew] at hk ⊢
    split
    · rename_i hj
      simp [Dict.mem_keys_set, hj]
    · rename_i hj
      split
      · simp [Dict.mem_keys_erase, hj]
      · rename_i hj'
        rw [hk]
        omega
  · rw [if_neg hkey, ← hk]
    split
    · simp [Dict.mem_keys_set, Ne.symm hkey]
    · split
      · simp [Dict.mem_keys_erase, Ne.symm hkey]
      · exact Iff.rfl

/-- A key comes to the first bucket only from there, where it keeps its place. -/
theorem refile_first :
    ((c.updateFreq key line).bucket 1).keys = (c.cache.set key l').keysWhere rarely := by
  have hone : key ∈ (c.bucket 1).keys ↔ freqOf l = 1 := by
    simp [h.filed key 1, hl]
  rw [bucket_updateFreq c key 1 hline]
  by_cases hac : line.accessCount = 1
  · have hl1 : freqOf l = 1 := by
      have := one_le_freqOf l
      omega
    have hrare : rarely l = rarely l' := by
      rw [freqOf_eq_one.mp hl1, freqOf_eq_one.mp (hnew.trans hac)]
    rw [if_pos hac, Dict.keys_set, if_pos (hone.mpr hl1), h.first,
      Dict.keysWhere_set_of_iff rarely hl hrare]
  · have hrare : rarely l' = false := by
      rw [← Bool.not_eq_true, ← freqOf_eq_one, hnew]
      exact hac
    rw [if_neg hac, Dict.keysWhere_set_of_not rarely hrare, ← h.first]
    split
    · exact Dict.keys_erase ..
    · rename_i hac'
      refine (List.erase_of_not_mem fun hm => ?_).symm
      have := hone.mp hm
      omega

omit hline hold hnew in
theorem minFreq_updateFreq : (c.updateFreq key line).minFreq =
    if ((c.bucket (line.accessCount - 1)).erase key).entries = [] ∧
      c.minFreq = line.accessCount - 1 then line.accessCount else c.minFreq := by
  obtain ⟨k, l', hk, hfreq⟩ := h.occupied key ((Dict.mem_keys _).mpr (by rw [hl]; rfl))
  exact minFreq_leave ((Dict.entries_ne_nil _).mpr ⟨k, (h.filed k _).mpr ⟨l', hk, hfreq⟩⟩)

theorem refile_occupied : ∃ j l'', (c.cache.set key l').get? j = some l'' ∧
    freqOf l'' = (c.updateFreq key line).minFreq := by
  obtain ⟨k, lk, hk, hfreq⟩ := h.occupied key ((Dict.mem_keys _).mpr (by rw [hl]; rfl))
  rw [h.minFreq_updateFreq hl]
  split
  · exact ⟨key, l', Dict.get?_set_self .., hnew⟩
  · rename_i hstay
    by_cases hkey : key = k
    · subst hkey
      cases hl.symm.trans hk
      by_cases hac : line.accessCount = c.minFreq
      · exact ⟨key, l', Dict.get?_set_self .., hnew.trans hac⟩
      · -- the bucket it leaves is the least one, and holds another key
        have hm : c.minFreq = line.accessCount - 1 := by omega
        obtain ⟨k₁, hk₁⟩ := (Dict.entries_ne_nil _).mp fun he => hstay ⟨he, hm⟩
        obtain ⟨hne, hk₁⟩ := (Dict.mem_keys_erase _).mp hk₁
        obtain ⟨l₁, hl₁, hfreq⟩ := (h.filed k₁ _).mp hk₁
        refine ⟨k₁, l₁, ?_, hfreq.trans hm.symm⟩
        rw [Dict.get?_set, if_neg (Ne.symm hne), hl₁]
    · refine ⟨k, lk, ?_, hfreq⟩
      rw [Dict.get?_set, if_neg hkey, hk]

theorem refile_least {k : Key} {l'' : CacheLine Val}
    (hl'' : (c.cache.set key l').get? k = some l'') :
    (c.updateFreq key line).minFreq ≤ freqOf l'' := by
  rw [h.minFreq_updateFreq hl]
  rw [Dict.get?_set] at hl''
  split at hl''
  · cases hl''
    have := h.least key l hl
    split <;> omega
  · rename_i hk
    have hleast := h.least k l'' hl''
    split
    · rename_i hgo
      have hnot : k ∉ ((c.bucket (line.accessCount - 1)).erase key).keys := by
        rw [Dict.keys, hgo.1]
        exact List.not_mem_nil
      have hfreq : freqOf l'' ≠ line.accessCount - 1 := fun hf =>
        hnot ((Dict.mem_keys_erase _).mpr ⟨Ne.symm hk, (h.filed k _).mpr ⟨l'', hl'', hf⟩⟩)
      omega
    · exact hleast

theorem refile (hcount : 1 ≤ l'.accessCount) :
    ({ c.updateFreq key line with cache := c.cache.set key l' } : LFUCache Key Val).Tidy where
  positive := by
    change 0 < (c.updateFreq key line).capacity
    rw [updateFreq_capacity]
    exact h.positive
  counted := by
    intro k l'' hl''
    rw [Dict.get?_set] at hl''
    split at hl''
    · exact Option.some.inj hl'' ▸ hcount
    · exact h.counted k l'' hl''
  filed := h.refile_filed hl hline hold hnew
  first := h.refile_first hl hline hold hnew
  room := by
    change size (c.cache.set key l') ≤ (c.updateFreq key line).capacity
    rw [updateFreq_capacity, size_eq, Dict.keys_set,
      if_pos ((Dict.mem_keys _).mpr (by rw [hl]; rfl)), ← size_eq]
    exact h.room
  occupied := fun _ _ => h.refile_occupied hl hline hold hnew
  least := fun _ _ hl'' => h.refile_least hl hline hold hnew hl''

end Refile

theorem get (key : Key) : (c.get key).2.Tidy := by
  unfold LFUCache.get
  cases hl : c.cache.get? key with
  | none => exact h
  | some l =>
    have hcount := h.counted key l hl
    have htouch : l.touch.accessCount = l.accessCount + 1 := rfl
    have hcount' : 1 ≤ l.touch.accessCount := by omega
    dsimp only
    rw [updateFreq_cache]
    refine h.refile hl hcount ?_ ?_ hcount'
    · simp only [freqOf]
      omega
    · simp only [freqOf]
      omega

theorem putAgain {l line : CacheLine Val} (hl : c.cache.get? key = some l)
    (hline : line.accessCount = 1) (hrare : l.accessCount ≤ 2) :
    ({ c with cache := c.cache.set key line }.updateFreq key line).Tidy := by
  rw [updateFreq_with]
  refine h.refile hl hline.ge (.inl ?_) ?_ hline.ge
  · rw [hline, freqOf_eq_one, rarely, decide_eq_true_eq]
    exact hrare
  · simp [freqOf, hline]

end Tidy

namespace Filed
variable {c key} (h : c.Filed)
include h

theorem add {line : CacheLine Val} (hkey : c.cache.get? key = none)
    (hroom : size c.cache < c.capacity) (hline : line.accessCount = 1) :
    (c.add key line).Tidy := by
  have hfreq : freqOf line = 1 := by simp [freqOf, hline]
  have hbucket (j : Nat) : (c.add key line).bucket j =
      if 1 = j then (c.bucket j).set key () else c.bucket j := bucket_enter
  have hnot (j : Nat) : key ∉ (c.bucket j).keys := by
    rw [h.filed, hkey]
    simp
  have hget (k : Key) : (c.add key line).cache.get? k =
      if key = k then some line else c.cache.get? k := Dict.get?_set ..
  refine ⟨⟨h.positive, ?_, ?_, ?_⟩, ?_, ?_, fun k l _ => one_le_freqOf l⟩
  · intro k l hl
    rw [hget] at hl
    split at hl
    · cases hl
      exact hline.ge
    · exact h.counted k l hl
  · intro k freq
    rw [hbucket, hget]
    have hk := h.filed k freq
    by_cases hkey' : key = k
    · subst hkey'
      simp only [if_pos, Option.some.injEq, exists_eq_left', hfreq]
      split
      · simp [Dict.mem_keys_set, *]
      · simp [*]
    · rw [if_neg hkey', ← hk]
      split
      · simp [Dict.mem_keys_set, Ne.symm hkey']
      · exact Iff.rfl
  · rw [hbucket, if_pos rfl, Dict.keys_set, if_neg (hnot 1), h.first, LFUCache.add_cache,
      Dict.keysWhere_set_of_none rarely hkey, if_pos (freqOf_eq_one.mp hfreq)]
  · rw [LFUCache.add_cache, size_eq, Dict.keys_set, if_neg (Dict.get?_eq_none.mp hkey),
      List.length_append, List.length_singleton]
    rw [size_eq] at hroom
    exact_mod_cast hroom
  · exact fun _ _ => ⟨key, line, by rw [hget, if_pos rfl], hfreq⟩

theorem evict {freq : Nat} {e : Key × Unit} {rest : Dict Key Unit}
    (hpop : (c.bucket freq).popFirst = some (e, rest)) :
    ({ c with freqMap := c.freqMap.set freq rest, cache := c.cache.erase e.1 } :
      LFUCache Key Val).Filed := by
  have hbucket (j : Nat) : ({ c with
      freqMap := c.freqMap.set freq rest, cache := c.cache.erase e.1 } :
        LFUCache Key Val).bucket j = if freq = j then (c.bucket j).erase e.1 else c.bucket j := by
    rw [bucket, Dict.get?_set]
    split
    · rename_i hj
      rw [← hj, ← Dict.popFirst_eq_erase hpop, Option.getD_some]
    · rfl
  have he : e.1 ∈ (c.bucket freq).keys := by
    rw [Dict.keys_popFirst hpop]
    exact List.mem_cons_self
  obtain ⟨l, hl, hfreq⟩ := (h.filed e.1 freq).mp he
  refine ⟨h.positive, ?_, ?_, ?_⟩
  · intro k l hl
    rw [Dict.get?_erase] at hl
    split at hl
    · cases hl
    · exact h.counted k l hl
  · intro k j
    rw [hbucket, Dict.get?_erase]
    have hk := h.filed k j
    by_cases hke : k = e.1
    · subst hke
      rw [hl] at hk
      split
      · simp [Dict.mem_keys_erase]
      · rename_i hj
        simp [hk, hfreq, hj]
    · rw [if_neg hke, ← hk]
      split
      · simp [Dict.mem_keys_erase, hke]
      · exact Iff.rfl
  · rw [hbucket, Dict.keysWhere_erase, ← h.first]
    split
    · exact Dict.keys_erase ..
    · rename_i hj
      refine (List.erase_of_not_mem fun hm => hj ?_).symm
      obtain ⟨l', hl', hone⟩ := (h.filed e.1 1).mp hm
      cases hl.symm.trans hl'
      exact hfreq.symm.trans hone

end Filed

inductive PutNew (c : LFUCache Key Val) (key : Key) (line : CacheLine Val)
    (out : Except Raised (Option Key) × LFUCache Key Val) : Prop
  | room (hsize : size c.cache < c.capacity) (hout : out = (.ok none, c.add key line))
  | full (e : Key × Unit) (rest : Dict Key Unit) (l : CacheLine Val)
      (hsize : c.capacity ≤ size c.cache)
      (hpop : (c.bucket c.minFreq).popFirst = some (e, rest))
      (hl : c.cache.get? e.1 = some l) (hfreq : freqOf l = c.minFreq)
      (hout : out = (.ok (some e.1), { c with
        freqMap := c.freqMap.set c.minFreq rest, cache := c.cache.erase e.1 }.add key line))

namespace Tidy
variable {c key} (h : c.Tidy)
include h

theorem put_new (hkey : c.cache.get? key = none) (line : CacheLine Val) :
    PutNew c key line (c.put key line) := by
  have hpos := h.positive
  rw [put, if_neg (not_le.mpr hpos), hkey]
  dsimp only
  by_cases hsize : size c.cache ≥ c.capacity
  · rw [if_pos hsize]
    have hne : c.cache.entries ≠ [] := by
      intro he
      simp only [size, he, List.length_nil] at hsize
      omega
    obtain ⟨k, hk⟩ := (Dict.entries_ne_nil _).mp hne
    obtain ⟨j, l, hj, hfreq⟩ := h.occupied k hk
    have hmem : j ∈ (c.bucket c.minFreq).keys := (h.filed j _).mpr ⟨l, hj, hfreq⟩
    cases hpop : (c.bucket c.minFreq).popFirst with
    | none => exact absurd (Dict.popFirst_eq_none.mp hpop) ((Dict.entries_ne_nil _).mpr ⟨j, hmem⟩)
    | some r =>
      have hr : r.1.1 ∈ (c.bucket c.minFreq).keys := by
        rw [Dict.keys_popFirst hpop]
        exact List.mem_cons_self
      obtain ⟨l', hl', hfreq'⟩ := (h.filed r.1.1 _).mp hr
      refine .full r.1 r.2 l' hsize hpop hl' hfreq' ?_
      rw [bucket] at hpop
      rw [hpop]
      dsimp only
      rw [hl']
  · rw [if_neg hsize]
    exact .room (not_le.mp hsize) rfl

theorem put (hkey : c.cache.get? key = none) {line : CacheLine Val}
    (hline : line.accessCount = 1) :
    (∃ k, (c.put key line).1 = .ok k) ∧ (c.put key line).2.Tidy := by
  cases h.put_new hkey line with
  | room hsize hout =>
    rw [hout]
    exact ⟨⟨none, rfl⟩, h.toFiled.add hkey hsize hline⟩
  | full e rest l hsize hpop hl hfreq hout =>
    rw [hout]
    refine ⟨⟨some e.1, rfl⟩, (h.toFiled.evict hpop).add ?_ ?_ hline⟩
    · rw [Dict.get?_erase, hkey, ite_self]
    · have hroom := h.room
      have hmem : e.1 ∈ c.cache.keys := (Dict.mem_keys _).mpr (by rw [hl]; rfl)
      have hlen := List.length_erase_of_mem hmem
      have hpos := List.length_pos_of_mem hmem
      rw [size_eq] at hroom ⊢
      rw [Dict.keys_erase, hlen]
      change _ < c.capacity
      omega

end Tidy

end LFUCache
end DistSync.Cache
