import DistSync.Cache.Store
import DistSync.Recency
import DistSync.Run

/-! The LRU policy against a map that gives up the key used longest ago. Both drive out the same
keys; what they have bound to a key is the same until it is put again. -/
namespace DistSync.Cache

inductive StoreCall (Key Val : Type) where
  | get (key : Key)
  | put (key : Key) (line : CacheLine Val)
  | invalidate (key : Key)

deriving instance DecidableEq for CacheLine

inductive Outcome (Key Val : Type) where
  | found (line : Option (CacheLine Val))
  | evicted (key : Option Key)
  | raised
deriving DecidableEq

def Outcome.ofPut {Key Val : Type} : Except Raised (Option Key) → Outcome Key Val
  | .ok key => .evicted key
  | .error _ => .raised

section Calls
variable {Key Val : Type} [DecidableEq Key]

def LRUCache.call (c : LRUCache Key Val) : StoreCall Key Val → Outcome Key Val × LRUCache Key Val
  | .get key => (.found (c.get key).1, (c.get key).2)
  | .put key line => (.ofPut (c.put key line).1, (c.put key line).2)
  | .invalidate key => (.found (c.invalidate key).1, (c.invalidate key).2)

def LRUCache.outcomes (c : LRUCache Key Val) : List (StoreCall Key Val) → List (Outcome Key Val)
  | [] => []
  | a :: as => (c.call a).1 :: outcomes (c.call a).2 as

def LRUCache.after (c : LRUCache Key Val) (as : List (StoreCall Key Val)) : LRUCache Key Val :=
  as.foldl (fun c a => (c.call a).2) c

/-- The same call of the reference; a line counts the times it is got. -/
def StoreCall.onMap (capacity : Nat) (r : Recency Key (CacheLine Val)) :
    StoreCall Key Val → Outcome Key Val × Recency Key (CacheLine Val)
  | .get key => (.found (r.get key CacheLine.touch).1, (r.get key CacheLine.touch).2)
  | .put key line => (.evicted (r.put key capacity line).1, (r.put key capacity line).2)
  | .invalidate key => (.found (r.bound key), r.remove key)

def outcomesOnMap (capacity : Nat) (r : Recency Key (CacheLine Val)) :
    List (StoreCall Key Val) → List (Outcome Key Val)
  | [] => []
  | a :: as => (a.onMap capacity r).1 :: outcomesOnMap capacity (a.onMap capacity r).2 as

/-- The results are those of the reference, and there are never more lines than may be. -/
def ImplementsLRU (capacity : Nat) (as : List (StoreCall Key Val)) : Prop :=
  ({ capacity := capacity } : LRUCache Key Val).outcomes as = outcomesOnMap capacity .empty as ∧
    ∀ past, past <+: as →
      size (({ capacity := capacity } : LRUCache Key Val).after past).cache ≤ capacity

end Calls

/-- A store and the keys that were last put with a line other than the one they had. -/
structure Watched (Key Val : Type) where
  cache : LRUCache Key Val
  stale : Finset Key := ∅

namespace Watched
variable {Key Val : Type} [DecidableEq Key] [DecidableEq Val] (s : Watched Key Val)

def mark : StoreCall Key Val → Finset Key
  | .put key line =>
    if ∃ l ∈ s.cache.cache.get? key, l ≠ line then insert key s.stale else s.stale.erase key
  | _ => s.stale

/-- If the key is cached, its last `put` did not find it with another line. -/
def Intact (key : Key) : Prop := key ∈ s.cache.cache.keys → key ∉ s.stale

def Spares : StoreCall Key Val → Prop
  | .get key => s.Intact key
  | .put _ _ => True
  | .invalidate key => s.Intact key

instance (key : Key) : Decidable (s.Intact key) := inferInstanceAs (Decidable (_ → _))

instance : (a : StoreCall Key Val) → Decidable (s.Spares a)
  | .get key => inferInstanceAs (Decidable (s.Intact key))
  | .put _ _ => isTrue trivial
  | .invalidate key => inferInstanceAs (Decidable (s.Intact key))

end Watched

def watched {Key Val : Type} [DecidableEq Key] [DecidableEq Val] (capacity : Nat) :
    System (Watched Key Val) (StoreCall Key Val) where
  init := { cache := { capacity := capacity } }
  step s a := some { cache := (s.cache.call a).2, stale := s.mark a }

/-- `put` finds the key bound, room for it, or the cache full. -/
inductive LRUCache.PutCases {Key Val : Type} [DecidableEq Key] (c : LRUCache Key Val) (key : Key)
    (line : CacheLine Val) (out : Except Raised (Option Key) × LRUCache Key Val) : Prop
  | bound (l : CacheLine Val) (hl : c.cache.get? key = some l)
      (hout : out = (.ok none, { c with cache := c.cache.moveToEnd key }))
  | room (hl : c.cache.get? key = none) (hsize : size c.cache < c.capacity)
      (hout : out = (.ok none, { c with cache := c.cache.set key line }))
  | full (e : Key × CacheLine Val) (rest : Dict Key (CacheLine Val))
      (hl : c.cache.get? key = none) (hsize : c.capacity ≤ size c.cache)
      (hpop : c.cache.popFirst = some (e, rest))
      (hout : out = (.ok (some e.1), { c with cache := rest.set key line }))

theorem LRUCache.put_cases {Key Val : Type} [DecidableEq Key] (c : LRUCache Key Val) (key : Key)
    (line : CacheLine Val) (hc : 0 < c.capacity) : c.PutCases key line (c.put key line) := by
  unfold put
  cases hl : c.cache.get? key with
  | some l => exact .bound l hl rfl
  | none =>
    dsimp only
    split
    · rename_i hsize
      cases hpop : c.cache.popFirst with
      | none =>
        have hempty : c.cache.entries = [] := Dict.popFirst_eq_none.mp hpop
        simp only [size, hempty, List.length_nil] at hsize
        omega
      | some p => exact .full p.1 p.2 hl hsize hpop rfl
    · rename_i hsize
      exact .room hl (not_le.mp hsize) rfl

theorem CacheLine.touch_injective {Val : Type} :
    Function.Injective (touch : CacheLine Val → CacheLine Val) := by
  rintro ⟨v, s, n, d, i⟩ ⟨v', s', n', d', i'⟩ h
  simpa [touch] using h

theorem Watched.mem_mark_put {Key Val : Type} [DecidableEq Key] [DecidableEq Val]
    (s : Watched Key Val) (key k : Key) (line : CacheLine Val) :
    k ∈ s.mark (.put key line) ↔
      if k = key then ∃ l ∈ s.cache.cache.get? key, l ≠ line else k ∈ s.stale := by
  rw [mark]
  split
  · rename_i h
    by_cases hk : k = key
    · rw [if_pos hk, hk]
      exact iff_of_true (Finset.mem_insert_self ..) h
    · rw [if_neg hk, Finset.mem_insert, or_iff_right hk]
  · rename_i h
    by_cases hk : k = key
    · rw [if_pos hk, hk]
      exact iff_of_false (Finset.notMem_erase _ _) h
    · rw [if_neg hk, Finset.mem_erase, and_iff_right hk]

/-- The reference has the keys in the same order, and other lines for the stale ones alone. -/
structure Watched.Mirrors {Key Val : Type} [DecidableEq Key] (s : Watched Key Val)
    (r : Recency Key (CacheLine Val)) : Prop where
  order : r.order = s.cache.cache.keys
  bound : ∀ k l, s.cache.cache.get? k = some l → (k ∈ s.stale ↔ r.bound k ≠ some l)

namespace Watched.Mirrors
variable {Key Val : Type} [DecidableEq Key] [DecidableEq Val] {s : Watched Key Val}
  {r : Recency Key (CacheLine Val)} (h : s.Mirrors r)
include h

omit [DecidableEq Val] in
theorem bound_isSome (key : Key) : (r.bound key).isSome = (s.cache.cache.get? key).isSome := by
  rw [Bool.eq_iff_iff, ← r.mem_order, h.order, Dict.mem_keys]

omit [DecidableEq Val] in
theorem bound_none {key : Key} (hc : s.cache.cache.get? key = none) : r.bound key = none := by
  simpa [hc] using h.bound_isSome key

omit [DecidableEq Val] in
theorem get?_iff (key : Key) : s.cache.cache.get? key = r.bound key ↔ s.Intact key := by
  cases hc : s.cache.cache.get? key with
  | none =>
    rw [h.bound_none hc]
    have hk : key ∉ s.cache.cache.keys := Dict.get?_eq_none.mp hc
    exact iff_of_true rfl fun hm => absurd hm hk
  | some l =>
    have hk : key ∈ s.cache.cache.keys := (Dict.mem_keys _).mpr (by rw [hc]; rfl)
    rw [Intact, imp_iff_right hk, h.bound key l hc, not_not, eq_comm]

omit [DecidableEq Val] in
theorem get_iff (key : Key) :
    (s.cache.get key).1 = (r.get key CacheLine.touch).1 ↔ s.Intact key := by
  rw [LRUCache.get_fst, r.get_fst, (Option.map_injective CacheLine.touch_injective).eq_iff,
    h.get?_iff]

omit [DecidableEq Val] in
theorem mem_order {key : Key} : key ∈ r.order ↔ (s.cache.cache.get? key).isSome := by
  rw [h.order, Dict.mem_keys]

omit [DecidableEq Val] in
theorem length_order : size s.cache.cache = r.order.length := by
  rw [h.order, size, Dict.keys, List.length_map]

omit [DecidableEq Val] in
theorem put_fst {capacity : Nat} (hc : 0 < capacity) (hcap : s.cache.capacity = capacity)
    (key : Key) (line : CacheLine Val) :
    (s.cache.put key line).1 = .ok (r.victim key capacity) := by
  have hlen := h.length_order
  unfold Recency.victim
  cases s.cache.put_cases key line (by omega) with
  | bound l hl hout =>
    have hmem : key ∈ r.order := h.mem_order.mpr (by rw [hl]; rfl)
    rw [hout, if_neg fun hn => hn.1 hmem]
  | room hl hsize hout =>
    rw [hout, if_neg fun hn => by omega]
  | full e rest hl hsize hpop hout =>
    have hmem : key ∉ r.order := fun hm => by simpa [hl] using h.mem_order.mp hm
    rw [hout, if_pos ⟨hmem, by omega⟩, h.order, Dict.keys_popFirst hpop]
    rfl

omit [DecidableEq Val] in
theorem use {c : LRUCache Key Val} {stale : Finset Key} {key : Key} {v : CacheLine Val}
    (hkeys : c.cache.keys = s.cache.cache.keys.erase key ++ [key])
    (hkey : ∀ l, c.cache.get? key = some l → (key ∈ stale ↔ v ≠ l))
    (hget : ∀ k, k ≠ key → c.cache.get? k = s.cache.cache.get? k)
    (hstale : ∀ k, k ≠ key → (k ∈ stale ↔ k ∈ s.stale)) :
    (⟨c, stale⟩ : Watched Key Val).Mirrors (r.use key v) where
  order := by
    rw [hkeys, Recency.order_use, h.order]
  bound := by
    intro k l hl
    by_cases hk : k = key
    · subst hk
      rw [hkey l hl]
      rw [Recency.bound_use_self, ne_eq, ne_eq, Option.some.injEq]
    · rw [hget k hk] at hl
      rw [hstale k hk, h.bound k l hl, Recency.bound_use_of_ne _ _ hk]

omit [DecidableEq Val] in
theorem remove (key : Key) :
    (⟨{ s.cache with cache := s.cache.cache.erase key }, s.stale⟩ : Watched Key Val).Mirrors
      (r.remove key) where
  order := by
    rw [Dict.keys_erase, ← h.order]
    rfl
  bound := by
    intro k l hl
    rw [Dict.get?_erase] at hl
    split at hl
    · cases hl
    · rename_i hk
      rw [h.bound k l hl, Recency.bound_remove_of_ne _ hk]

omit [DecidableEq Val] in
theorem get (key : Key) :
    (⟨(s.cache.get key).2, s.stale⟩ : Watched Key Val).Mirrors (r.get key CacheLine.touch).2 := by
  unfold LRUCache.get Recency.get
  cases hc : s.cache.cache.get? key with
  | none =>
    rw [h.bound_none hc]
    exact h
  | some l =>
    obtain ⟨v, hv⟩ := Option.isSome_iff_exists.mp ((h.bound_isSome key).trans (by rw [hc]; rfl))
    have hk : key ∈ s.cache.cache.keys := (Dict.mem_keys _).mpr (by rw [hc]; rfl)
    rw [hv]
    refine h.use ?_ ?_ ?_ fun _ _ => Iff.rfl
    · rw [Dict.keys_set, if_pos (by simp [Dict.keys_moveToEnd _ hk]), Dict.keys_moveToEnd _ hk]
    · intro l' hl'
      rw [Dict.get?_set_self] at hl'
      cases hl'
      rw [h.bound key l hc, hv, ne_eq, Option.some.injEq, CacheLine.touch_injective.ne_iff]
    · intro k hk
      simp [Dict.get?_set, Ne.symm hk]

theorem put {capacity : Nat} (hc : 0 < capacity) (hcap : s.cache.capacity = capacity)
    (key : Key) (line : CacheLine Val) :
    (⟨(s.cache.put key line).2, s.mark (.put key line)⟩ : Watched Key Val).Mirrors
      (r.put key capacity line).2 := by
  have hmark (k : Key) (hk : k ≠ key) : k ∈ s.mark (.put key line) ↔ k ∈ s.stale := by
    rw [mem_mark_put, if_neg hk]
  have hnew (hl : s.cache.cache.get? key = none) : key ∉ s.mark (.put key line) := by
    simp [mem_mark_put, hl]
  have hout := h.put_fst hc hcap key line
  unfold Recency.put
  cases s.cache.put_cases key line (by omega) with
  | bound l hl hput =>
    have hk : key ∈ s.cache.cache.keys := (Dict.mem_keys _).mpr (by rw [hl]; rfl)
    rw [hput] at hout ⊢
    rw [← Except.ok.inj hout]
    refine h.use (Dict.keys_moveToEnd _ hk) (fun l' hl' => ?_) (fun k _ => ?_) hmark
    · rw [Dict.get?_moveToEnd, hl] at hl'
      cases hl'
      rw [mem_mark_put, if_pos rfl, hl]
      simp [eq_comm]
    · exact Dict.get?_moveToEnd ..
  | room hl hsize hput =>
    rw [hput] at hout ⊢
    rw [← Except.ok.inj hout]
    refine h.use (Dict.keys_set_of_none _ hl line) (fun l' hl' => ?_) (fun k hk => ?_) hmark
    · rw [Dict.get?_set_self] at hl'
      exact iff_of_false (hnew hl) (not_not.mpr (Option.some.inj hl'))
    · rw [Dict.get?_set, if_neg (Ne.symm hk)]
  | full e rest hl hsize hpop hput =>
    rw [hput] at hout ⊢
    rw [← Except.ok.inj hout]
    cases Dict.popFirst_eq_erase hpop
    have hrest : (s.cache.cache.erase e.1).get? key = none := by
      rw [Dict.get?_erase, hl, ite_self]
    refine (h.remove e.1).use (Dict.keys_set_of_none _ hrest line) (fun l' hl' => ?_)
      (fun k hk => ?_) hmark
    · rw [Dict.get?_set_self] at hl'
      exact iff_of_false (hnew hl) (not_not.mpr (Option.some.inj hl'))
    · rw [Dict.get?_set, if_neg (Ne.symm hk)]

/-- One call: the keys go on as in the reference, and the result is its result exactly if the
call looks up no stale key. -/
theorem call {capacity : Nat} (hc : 0 < capacity) (hcap : s.cache.capacity = capacity)
    (a : StoreCall Key Val) :
    (⟨(s.cache.call a).2, s.mark a⟩ : Watched Key Val).Mirrors (a.onMap capacity r).2 ∧
      ((s.cache.call a).1 = (a.onMap capacity r).1 ↔ s.Spares a) := by
  cases a with
  | get key =>
    refine ⟨h.get key, ?_⟩
    rw [LRUCache.call, StoreCall.onMap, Outcome.found.injEq]
    exact h.get_iff key
  | put key line =>
    refine ⟨h.put hc hcap key line, iff_of_true ?_ trivial⟩
    rw [LRUCache.call, h.put_fst hc hcap]
    rfl
  | invalidate key =>
    refine ⟨h.remove key, ?_⟩
    rw [LRUCache.call, StoreCall.onMap, Outcome.found.injEq]
    exact h.get?_iff key

end Watched.Mirrors

section Runs
variable {Key Val : Type} [DecidableEq Key] [DecidableEq Val]

omit [DecidableEq Val] in
theorem LRUCache.capacity_call (c : LRUCache Key Val) (a : StoreCall Key Val) :
    (c.call a).2.capacity = c.capacity := by
  cases a with
  | get key =>
    simp only [call, LRUCache.get]
    split <;> rfl
  | put key line =>
    simp only [call, LRUCache.put]
    split
    · rfl
    · split
      · split <;> rfl
      · rfl
  | invalidate key => rfl

theorem outcomes_eq_iff {capacity : Nat} (hc : 0 < capacity) {s : Watched Key Val}
    {r : Recency Key (CacheLine Val)} (h : s.Mirrors r) (hcap : s.cache.capacity = capacity)
    (as : List (StoreCall Key Val)) :
    s.cache.outcomes as = outcomesOnMap capacity r as ↔
      (watched capacity).Along (fun s a _ => s.Spares a) s as := by
  induction as generalizing s r with
  | nil => exact iff_of_true rfl trivial
  | cons a as ih =>
    obtain ⟨hnext, hout⟩ := h.call hc hcap a
    have hrest := ih hnext ((s.cache.capacity_call a).trans hcap)
    rw [LRUCache.outcomes, outcomesOnMap, List.cons.injEq, hout, hrest]
    constructor
    · intro hp t ht
      cases ht
      exact hp
    · exact fun hp => hp _ rfl

theorem size_after_le {capacity : Nat} (hc : 0 < capacity) {s : Watched Key Val}
    {r : Recency Key (CacheLine Val)} (h : s.Mirrors r) (hcap : s.cache.capacity = capacity)
    (hlen : r.order.length ≤ capacity) (as : List (StoreCall Key Val)) :
    size (s.cache.after as).cache ≤ capacity := by
  induction as generalizing s r with
  | nil =>
    rw [LRUCache.after, List.foldl_nil, h.length_order]
    exact Int.ofNat_le.mpr hlen
  | cons a as ih =>
    refine ih (h.call hc hcap a).1 ((s.cache.capacity_call a).trans hcap) ?_
    cases a with
    | get key => exact (r.length_get key _).le.trans hlen
    | put key line => exact r.length_put_le key hc hlen line
    | invalidate key => exact List.length_erase_le.trans hlen

/-- The LRU policy does what a map in order of use does exactly if no key is looked up whose
last `put` found it cached with another line. -/
theorem implementsLRU_iff (capacity : Nat) (hc : 1 ≤ capacity) (as : List (StoreCall Key Val)) :
    ImplementsLRU capacity as ↔
      (watched capacity).Along (fun s a _ => s.Spares a) (watched capacity).init as := by
  have h : (watched capacity : System (Watched Key Val) _).init.Mirrors .empty :=
    ⟨rfl, fun k l hl => by cases hl⟩
  rw [← outcomes_eq_iff hc h rfl as]
  refine and_iff_left fun past _ => ?_
  exact size_after_le hc h rfl (Nat.zero_le _) past

theorem implementsLRU_reinserted : ImplementsLRU 1
    ([.put 0 { value := some 1 }, .put 1 { value := some 2 }, .put 0 { value := some 3 }, .get 0] :
      List (StoreCall Nat Nat)) :=
  (implementsLRU_iff 1 (by decide) _).mpr (by decide)

/-- A key is put again while it is cached, and got. -/
def putTwice : List (StoreCall Nat Nat) :=
  [.put 0 { value := some 1 }, .put 0 { value := some 2 }, .get 0]

theorem not_implementsLRU_putTwice : ¬ ImplementsLRU 2 putTwice := by
  intro h
  have hout : ({ capacity := 2 } : LRUCache Nat Nat).outcomes putTwice ≠
      outcomesOnMap 2 .empty putTwice := by
    decide
  exact hout h.1

end Runs
end DistSync.Cache
