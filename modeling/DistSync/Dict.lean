import Mathlib.Data.List.Basic
import Mathlib.Data.List.Nodup
import Mathlib.Data.Finset.Basic

/-! Insertion-ordered finite maps with Python's `dict` operations. A key keeps
its place when it is assigned again; the field `nodup` rules out double keys. -/
namespace DistSync

structure Dict (κ ν : Type) where
  entries : List (κ × ν)
  nodup : (entries.map Prod.fst).Nodup

namespace Dict
variable {κ ν ω : Type}

instance : EmptyCollection (Dict κ ν) := ⟨⟨[], List.nodup_nil⟩⟩
instance : Inhabited (Dict κ ν) := ⟨∅⟩

def keys (d : Dict κ ν) : List κ := d.entries.map Prod.fst

/-- `{k: f(v) for k, v in d.items()}`. -/
def mapValues (f : ν → ω) (d : Dict κ ν) : Dict κ ω where
  entries := d.entries.map fun e => (e.1, f e.2)
  nodup := by simpa [Function.comp_def] using d.nodup

def filterKeys (p : κ → Bool) (d : Dict κ ν) : Dict κ ν where
  entries := d.entries.filter fun e => p e.1
  nodup := d.nodup.sublist (List.filter_sublist.map Prod.fst)

variable [DecidableEq κ]

def lookup : List (κ × ν) → κ → Option ν
  | [], _ => none
  | (k', v) :: es, k => if k' = k then some v else lookup es k

def get? (d : Dict κ ν) (k : κ) : Option ν := lookup d.entries k

def assign : List (κ × ν) → κ → ν → List (κ × ν)
  | [], k, v => [(k, v)]
  | (k', v') :: es, k, v => if k' = k then (k', v) :: es else (k', v') :: assign es k v

theorem lookup_eq_some {es : List (κ × ν)} (hn : (es.map Prod.fst).Nodup) {k : κ} {v : ν} :
    lookup es k = some v ↔ (k, v) ∈ es := by
  induction es with
  | nil => simp [lookup]
  | cons e es ih =>
    obtain ⟨k', v'⟩ := e
    have hk := (List.nodup_cons.mp hn).1
    have hi := ih (List.nodup_cons.mp hn).2
    by_cases h : k' = k
    · subst k'
      have hv : (k, v) ∉ es := fun hm => hk (List.mem_map.mpr ⟨_, hm, rfl⟩)
      simp [lookup, hv, eq_comm]
    · simp [lookup, h, hi, Ne.symm h]

theorem lookup_eq_none {es : List (κ × ν)} {k : κ} :
    lookup es k = none ↔ k ∉ es.map Prod.fst := by
  induction es with
  | nil => simp [lookup]
  | cons e es ih =>
    obtain ⟨k', v'⟩ := e
    by_cases h : k' = k
    · simp [lookup, h]
    · simp only [lookup, if_neg h, ih, List.map_cons, List.mem_cons, not_or, Ne.symm h,
        not_false_eq_true, true_and]

theorem lookup_assign (es : List (κ × ν)) (k j : κ) (v : ν) :
    lookup (assign es k v) j = if k = j then some v else lookup es j := by
  induction es with
  | nil => simp [assign, lookup]
  | cons e es ih =>
    obtain ⟨k', v'⟩ := e
    by_cases h : k' = k
    · subst k'
      by_cases hj : k = j <;> simp [assign, lookup, hj]
    · by_cases hj : k' = j
      · subst k'
        simp [assign, lookup, h, Ne.symm h]
      · simp [assign, lookup, h, hj, ih]

theorem assign_assign (es : List (κ × ν)) (k : κ) (v w : ν) :
    assign (assign es k v) k w = assign es k w := by
  induction es with
  | nil => simp [assign]
  | cons e es ih =>
    obtain ⟨k', v'⟩ := e
    by_cases h : k' = k <;> simp [assign, h, ih]

theorem keys_assign (es : List (κ × ν)) (k : κ) (v : ν) :
    (assign es k v).map Prod.fst =
      if k ∈ es.map Prod.fst then es.map Prod.fst else es.map Prod.fst ++ [k] := by
  induction es with
  | nil => simp [assign]
  | cons e es ih =>
    obtain ⟨k', v'⟩ := e
    by_cases h : k' = k
    · simp [assign, h]
    · simp only [assign, if_neg h, List.map_cons, ih, List.mem_cons, Ne.symm h, false_or]
      split <;> simp

/-- `d[k] = v`. -/
def set (d : Dict κ ν) (k : κ) (v : ν) : Dict κ ν where
  entries := assign d.entries k v
  nodup := by
    rw [keys_assign]
    split
    · exact d.nodup
    · rename_i h
      exact List.nodup_append.mpr ⟨d.nodup, List.nodup_singleton k, by
        intro a ha b hb
        rw [List.mem_singleton.mp hb]
        exact fun he => h (he ▸ ha)⟩

/-- `d.pop(k, None)`. -/
def erase (d : Dict κ ν) (k : κ) : Dict κ ν := d.filterKeys fun j => j ≠ k

/-- `d.move_to_end(k)`. -/
def moveToEnd (d : Dict κ ν) (k : κ) : Dict κ ν :=
  match d.get? k with
  | some v => (d.erase k).set k v
  | none => d

/-- `d.popitem(last=False)`, `none` if there is no item. -/
def popFirst (d : Dict κ ν) : Option ((κ × ν) × Dict κ ν) :=
  match d with
  | ⟨[], _⟩ => none
  | ⟨e :: es, h⟩ => some (e, ⟨es, (List.nodup_cons.mp h).2⟩)

/-- `{k: v for k in ks}`. -/
def ofKeys (ks : List κ) (v : ν) : Dict κ ν := ks.foldl (fun d k => d.set k v) ∅

@[simp] theorem get?_empty (k : κ) : (∅ : Dict κ ν).get? k = none := rfl

theorem get?_eq_some {d : Dict κ ν} {k : κ} {v : ν} : d.get? k = some v ↔ (k, v) ∈ d.entries :=
  lookup_eq_some d.nodup

theorem get?_eq_none {d : Dict κ ν} {k : κ} : d.get? k = none ↔ k ∉ d.keys :=
  lookup_eq_none

theorem get?_set (d : Dict κ ν) (k j : κ) (v : ν) :
    (d.set k v).get? j = if k = j then some v else d.get? j :=
  lookup_assign d.entries k j v

@[simp] theorem get?_set_self (d : Dict κ ν) (k : κ) (v : ν) : (d.set k v).get? k = some v := by
  rw [get?_set, if_pos rfl]

theorem set_set (d : Dict κ ν) (k : κ) (v w : ν) : (d.set k v).set k w = d.set k w := by
  simp only [set, assign_assign]

theorem get?_filterKeys (d : Dict κ ν) (p : κ → Bool) (k : κ) :
    (d.filterKeys p).get? k = if p k then d.get? k else none := by
  ext v
  rw [get?_eq_some]
  by_cases h : p k = true
  · simp [filterKeys, h, get?_eq_some]
  · simp [filterKeys, h]

theorem get?_erase (d : Dict κ ν) (k j : κ) :
    (d.erase k).get? j = if j = k then none else d.get? j := by
  by_cases h : j = k <;> simp [erase, get?_filterKeys, h]

@[simp] theorem get?_moveToEnd (d : Dict κ ν) (k j : κ) : (d.moveToEnd k).get? j = d.get? j := by
  unfold moveToEnd
  cases h : d.get? k with
  | none => rfl
  | some v =>
    simp only [get?_set, get?_erase]
    by_cases hj : k = j
    · subst hj
      simp [h]
    · simp [hj, Ne.symm hj]

theorem get?_popFirst {d d' : Dict κ ν} {e : κ × ν} (h : d.popFirst = some (e, d')) (k : κ) :
    d'.get? k = if k = e.1 then none else d.get? k := by
  obtain ⟨entries, hn⟩ := d
  cases entries with
  | nil => cases h
  | cons e' es =>
    cases h
    by_cases hk : k = e.1
    · subst hk
      rw [if_pos rfl, get?_eq_none]
      exact (List.nodup_cons.mp hn).1
    · rw [if_neg hk]
      change lookup es k = lookup (e :: es) k
      rw [lookup, if_neg (Ne.symm hk)]

omit [DecidableEq κ] in
theorem eq_of_entries {d d' : Dict κ ν} (h : d.entries = d'.entries) : d = d' := by
  cases d
  cases d'
  cases h
  rfl

theorem popFirst_eq_erase {d d' : Dict κ ν} {e : κ × ν} (h : d.popFirst = some (e, d')) :
    d' = d.erase e.1 := by
  obtain ⟨entries, hn⟩ := d
  cases entries with
  | nil => cases h
  | cons e' es =>
    cases h
    have hes (x : κ × ν) (hx : x ∈ es) : x.1 ≠ e.1 := fun hxe =>
      (List.nodup_cons.mp hn).1 (List.mem_map.mpr ⟨x, hx, hxe⟩)
    refine eq_of_entries ?_
    change es = (e :: es).filter fun x => decide (x.1 ≠ e.1)
    rw [List.filter_cons_of_neg (by simp)]
    exact (List.filter_eq_self.mpr fun x hx => decide_eq_true (hes x hx)).symm

theorem erase_of_none {d : Dict κ ν} {k : κ} (h : d.get? k = none) : d.erase k = d := by
  refine eq_of_entries (List.filter_eq_self.mpr fun e he => decide_eq_true ?_)
  rintro rfl
  exact get?_eq_none.mp h (List.mem_map.mpr ⟨e, he, rfl⟩)

omit [DecidableEq κ] in
theorem popFirst_eq_none {d : Dict κ ν} : d.popFirst = none ↔ d.entries = [] := by
  obtain ⟨entries, hn⟩ := d
  cases entries <;> simp [popFirst]

omit [DecidableEq κ] in
theorem popFirst_of_empty {d : Dict κ ν} (h : d.entries.head?.map Prod.fst = none) :
    d.popFirst = none := by
  obtain ⟨entries, hn⟩ := d
  cases entries with
  | nil => rfl
  | cons e es => cases h

theorem popFirst_of_head {d : Dict κ ν} {k : κ} (h : d.entries.head?.map Prod.fst = some k) :
    ∃ v rest, d.popFirst = some ((k, v), rest) ∧ d.get? k = some v := by
  obtain ⟨entries, hn⟩ := d
  cases entries with
  | nil => cases h
  | cons e es =>
    cases h
    exact ⟨e.2, _, rfl, get?_eq_some.mpr List.mem_cons_self⟩

theorem assign_of_not_mem {es : List (κ × ν)} {k : κ} (h : k ∉ es.map Prod.fst) (v : ν) :
    assign es k v = es ++ [(k, v)] := by
  induction es with
  | nil => rfl
  | cons e es ih =>
    rw [List.map_cons, List.mem_cons, not_or] at h
    rw [assign, if_neg (Ne.symm h.1), ih h.2, List.cons_append]

theorem entries_set_of_none {d : Dict κ ν} {k : κ} (h : d.get? k = none) (v : ν) :
    (d.set k v).entries = d.entries ++ [(k, v)] :=
  assign_of_not_mem (get?_eq_none.mp h) v

theorem entries_erase {d : Dict κ ν} {k : κ} {v : ν} (h : d.get? k = some v) :
    d.entries.Perm ((k, v) :: (d.erase k).entries) := by
  obtain ⟨l, l', heq⟩ := List.append_of_mem (get?_eq_some.mp h)
  have hn := d.nodup
  rw [heq, List.map_append, List.map_cons, List.nodup_middle, List.nodup_cons,
    List.mem_append, not_or] at hn
  have hkeep {es : List (κ × ν)} (hk : k ∉ es.map Prod.fst) :
      es.filter (fun e => decide (e.1 ≠ k)) = es := by
    refine List.filter_eq_self.mpr fun e he => decide_eq_true fun hek => hk ?_
    exact List.mem_map.mpr ⟨e, he, hek⟩
  have herase : (d.erase k).entries = l ++ l' := by
    change d.entries.filter (fun e => decide (e.1 ≠ k)) = l ++ l'
    rw [heq, List.filter_append, hkeep hn.1.1, List.filter_cons_of_neg (by simp), hkeep hn.1.2]
  rw [heq, herase]
  exact List.perm_middle

section Keys
variable (d : Dict κ ν) (k : κ)

theorem keys_set (v : ν) :
    (d.set k v).keys = if k ∈ d.keys then d.keys else d.keys ++ [k] :=
  keys_assign d.entries k v

variable {k} in
theorem keys_set_of_none (h : d.get? k = none) (v : ν) :
    (d.set k v).keys = d.keys.erase k ++ [k] := by
  have hk : k ∉ d.keys := get?_eq_none.mp h
  rw [keys_set, if_neg hk, List.erase_of_not_mem hk]

theorem keys_erase : (d.erase k).keys = d.keys.erase k := by
  rw [keys, keys, d.nodup.erase_eq_filter, List.filter_map]
  refine congrArg (List.map Prod.fst) (List.filter_congr fun e _ => ?_)
  by_cases he : e.1 = k <;> simp [he]

variable {k}

theorem mem_keys : k ∈ d.keys ↔ (d.get? k).isSome := by
  rw [← not_iff_not, ← get?_eq_none]
  cases d.get? k <;> simp

theorem mem_keys_set {j : κ} {v : ν} : j ∈ (d.set k v).keys ↔ j = k ∨ j ∈ d.keys := by
  rw [mem_keys, mem_keys, get?_set]
  by_cases hj : j = k
  · simp [hj]
  · simp [hj, Ne.symm hj]

theorem mem_keys_erase {j : κ} : j ∈ (d.erase k).keys ↔ j ≠ k ∧ j ∈ d.keys := by
  rw [mem_keys, mem_keys, get?_erase]
  by_cases hj : j = k <;> simp [hj]

omit [DecidableEq κ] in
theorem entries_ne_nil : d.entries ≠ [] ↔ ∃ k, k ∈ d.keys := by
  cases h : d.entries <;> simp [keys, h]

theorem keys_moveToEnd (h : k ∈ d.keys) : (d.moveToEnd k).keys = d.keys.erase k ++ [k] := by
  obtain ⟨v, hv⟩ := Option.isSome_iff_exists.mp (d.mem_keys.mp h)
  have hk : k ∉ (d.erase k).keys := by
    rw [keys_erase]
    exact d.nodup.not_mem_erase
  rw [moveToEnd, hv]
  rw [keys_set_of_none _ (get?_eq_none.mpr hk), List.erase_of_not_mem hk, keys_erase]

omit [DecidableEq κ] in
theorem keys_popFirst {d d' : Dict κ ν} {e : κ × ν} (h : d.popFirst = some (e, d')) :
    d.keys = e.1 :: d'.keys := by
  obtain ⟨entries, hn⟩ := d
  cases entries with
  | nil => cases h
  | cons e' es =>
    cases h
    rfl

end Keys

section KeysWhere
variable (p : ν → Bool)

/-- `[k for k, v in d.items() if p(v)]`. -/
def keysWhere (d : Dict κ ν) : List κ := (d.entries.filter fun e => p e.2).map Prod.fst

variable {d : Dict κ ν} {k : κ} {v w : ν}

theorem keysWhere_set_of_none (h : d.get? k = none) (v : ν) :
    (d.set k v).keysWhere p = d.keysWhere p ++ if p v then [k] else [] := by
  rw [keysWhere, entries_set_of_none h, List.filter_append, List.map_append]
  cases hv : p v <;> simp [keysWhere, hv]

theorem keysWhere_erase : (d.erase k).keysWhere p = (d.keysWhere p).erase k := by
  have hn : (d.keysWhere p).Nodup := d.nodup.sublist (List.filter_sublist.map Prod.fst)
  rw [hn.erase_eq_filter, keysWhere, keysWhere, List.filter_map, List.filter_filter]
  change ((d.entries.filter fun e => decide (e.1 ≠ k)).filter _).map _ = _
  rw [List.filter_filter]
  refine congrArg (List.map Prod.fst) (List.filter_congr fun e _ => ?_)
  by_cases he : e.1 = k <;> simp [he]

theorem keysWhere_set_of_iff (h : d.get? k = some v) (hp : p v = p w) :
    (d.set k w).keysWhere p = d.keysWhere p := by
  have hlist (es : List (κ × ν)) (h : lookup es k = some v) :
      ((assign es k w).filter fun e => p e.2).map Prod.fst =
        (es.filter fun e => p e.2).map Prod.fst := by
    induction es with
    | nil => cases h
    | cons e es ih =>
      obtain ⟨k', v'⟩ := e
      by_cases hk : k' = k
      · simp only [lookup, if_pos hk, Option.some.injEq] at h
        simp only [assign, if_pos hk, List.filter_cons, h, hp]
        split <;> rfl
      · simp only [lookup, if_neg hk] at h
        simp only [assign, if_neg hk, List.filter_cons]
        split <;> simp [ih h]
  exact hlist d.entries h

theorem keysWhere_set_of_not (hp : p w = false) :
    (d.set k w).keysWhere p = (d.keysWhere p).erase k := by
  have hlist (es : List (κ × ν)) (hn : (es.map Prod.fst).Nodup) :
      ((assign es k w).filter fun e => p e.2).map Prod.fst =
        ((es.filter fun e => p e.2).map Prod.fst).erase k := by
    induction es with
    | nil => simp [assign, hp]
    | cons e es ih =>
      obtain ⟨k', v'⟩ := e
      obtain ⟨hnot, hn⟩ := List.nodup_cons.mp hn
      by_cases hk : k' = k
      · subst hk
        have hnot' : k' ∉ (es.filter fun e => p e.2).map Prod.fst :=
          fun hm => hnot ((List.filter_sublist.map Prod.fst).mem hm)
        simp only [assign, if_pos, List.filter_cons, hp]
        cases p v' <;> simp [List.erase_of_not_mem hnot']
      · simp only [assign, if_neg hk, List.filter_cons]
        cases p v' <;> simp [ih hn, List.erase_cons_tail, hk]
  exact hlist d.entries d.nodup

end KeysWhere

theorem get?_mapValues (d : Dict κ ν) (f : ν → ω) (k : κ) :
    (d.mapValues f).get? k = (d.get? k).map f := by
  have h (es : List (κ × ν)) :
      lookup (es.map fun e => (e.1, f e.2)) k = (lookup es k).map f := by
    induction es with
    | nil => rfl
    | cons e es ih =>
      obtain ⟨k', v⟩ := e
      by_cases hk : k' = k <;> simp [lookup, hk, ih]
  exact h d.entries

theorem mapValues_set (d : Dict κ ν) (f : ν → ω) (k : κ) (v : ν) :
    (d.set k v).mapValues f = (d.mapValues f).set k (f v) := by
  have h (es : List (κ × ν)) : (assign es k v).map (fun e => (e.1, f e.2)) =
      assign (es.map fun e => (e.1, f e.2)) k (f v) := by
    induction es with
    | nil => rfl
    | cons e es ih =>
      obtain ⟨k', v'⟩ := e
      by_cases hk : k' = k <;> simp [assign, hk, ih]
  exact eq_of_entries (h d.entries)

theorem mapValues_erase (d : Dict κ ν) (f : ν → ω) (k : κ) :
    (d.erase k).mapValues f = (d.mapValues f).erase k := by
  refine eq_of_entries ?_
  change (d.entries.filter _).map _ = (d.entries.map _).filter _
  rw [List.filter_map]
  rfl

theorem get?_foldl_set (ks : List κ) (v : ν) (d : Dict κ ν) (k : κ) :
    (ks.foldl (fun d k => d.set k v) d).get? k = if k ∈ ks then some v else d.get? k := by
  induction ks generalizing d with
  | nil => simp
  | cons j ks ih =>
    rw [List.foldl_cons, ih, get?_set]
    by_cases hk : k ∈ ks
    · simp [hk]
    · by_cases hj : j = k <;> simp [hk, hj, Ne.symm]

theorem get?_foldl_erase (ks : List κ) (d : Dict κ ν) (k : κ) :
    (ks.foldl erase d).get? k = if k ∈ ks then none else d.get? k := by
  induction ks generalizing d with
  | nil => simp
  | cons j ks ih =>
    rw [List.foldl_cons, ih, get?_erase]
    by_cases hk : k ∈ ks
    · simp [hk]
    · by_cases hj : k = j <;> simp [hk, hj]

theorem mem_keysWhere {p : ν → Bool} {d : Dict κ ν} {k : κ} :
    k ∈ d.keysWhere p ↔ ∃ v, d.get? k = some v ∧ p v = true := by
  simp [keysWhere, get?_eq_some]

theorem get?_ofKeys (ks : List κ) (v : ν) (k : κ) :
    (ofKeys ks v).get? k = if k ∈ ks then some v else none := by
  simpa only [ofKeys, get?_empty] using get?_foldl_set ks v ∅ k

end Dict
end DistSync
