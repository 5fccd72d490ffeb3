import DistSync.Cache.Node

/-! The values that a node has for the keys, and what each of its functions does to them. No
line of a node that was only ever read, written and asked for is in state INVALID. -/
namespace DistSync.Cache.CacheNode
variable {Name Key Val : Type} [DecidableEq Key]

def value? (x : CacheNode Name Key Val) (key : Key) : Option (Option Val) :=
  (x.store.line? key).map CacheLine.value

def Valid (x : CacheNode Name Key Val) : Prop :=
  ∀ key, ∀ line ∈ x.store.line? key, line.state ≠ .invalid

structure Alike (x' x : CacheNode Name Key Val) : Prop where
  value : ∀ key, x'.value? key = x.value? key
  policy : x'.store.policy = x.store.policy
  valid : x.Valid → x'.Valid

structure Changes (x' x : CacheNode Name Key Val) (key : Key) (v : Option (Option Val)) :
    Prop where
  value : ∀ j, x'.value? j = if j = key then v else x.value? j
  policy : x'.store.policy = x.store.policy
  valid : x.Valid → x'.Valid

variable {x x' : CacheNode Name Key Val} {key : Key}

theorem Alike.refl : x.Alike x := ⟨fun _ => rfl, rfl, id⟩

theorem holds_iff (h : x.Valid) : x.Holds key ↔ x.value? key ≠ none := by
  unfold Holds value?
  constructor
  · intro hx
    obtain ⟨line, hl, _⟩ := hx
    simp [Option.mem_def.mp hl]
  · intro hv
    obtain ⟨v, hv⟩ := Option.ne_none_iff_exists'.mp hv
    obtain ⟨line, hl, _⟩ := Option.map_eq_some_iff.mp hv
    exact ⟨line, hl, h key line hl⟩

theorem value?_eq_none : x.value? key = none ↔ x.store.line? key = none :=
  Option.map_eq_none_iff

theorem alike_of_map {f : CacheLine Val → CacheLine Val}
    (hline : ∀ j, x'.store.line? j =
      if j = key then (x.store.line? key).map f else x.store.line? j)
    (hpolicy : x'.store.policy = x.store.policy) (hvalue : ∀ l, (f l).value = l.value)
    (hvalid : ∀ l, l.state ≠ .invalid → (f l).state ≠ .invalid) : x'.Alike x where
  value j := by
    unfold value?
    rw [hline]
    by_cases hj : j = key
    · simp [hj, Function.comp_def, hvalue]
    · rw [if_neg hj]
  policy := hpolicy
  valid h j line hl := by
    rw [hline] at hl
    by_cases hj : j = key
    · rw [if_pos hj] at hl
      obtain ⟨l, hold, rfl⟩ := Option.map_eq_some_iff.mp hl
      exact hvalid l (h key l hold)
    · rw [if_neg hj] at hl
      exact h j line hl

theorem changes_of_line {o : Option (CacheLine Val)}
    (hline : ∀ j, x'.store.line? j = if j = key then o else x.store.line? j)
    (hpolicy : x'.store.policy = x.store.policy)
    (hvalid : ∀ line ∈ o, line.state ≠ .invalid) : x'.Changes x key (o.map CacheLine.value) where
  value j := by
    unfold value?
    rw [hline]
    split <;> rfl
  policy := hpolicy
  valid h j line hl := by
    rw [hline] at hl
    split at hl
    · exact hvalid line hl
    · exact h j line hl

variable (x) (nodeId : Name) (key) (value : Option Val)

theorem alike_read : (x.read key).2.Alike x :=
  alike_of_map (fun _ => line?_read ..) (by simp) (fun _ => rfl) fun _ h => h

theorem read_fst_of_valid (h : x.Valid) : (x.read key).1 = x.value? key := by
  rw [read_fst, value?]
  cases hl : x.store.line? key with
  | none => rfl
  | some line => simp [h key line hl]

theorem alike_write (h : ¬ x.Owns key) : (x.write key value).2.Alike x where
  value j := by
    unfold value?
    rw [line?_write]
    by_cases hj : j = key
    · subst hj
      cases hl : x.store.line? j with
      | none => simp
      | some line =>
        have hs : ¬ (line.state = .modified ∨ line.state = .exclusive) := fun hs => h ⟨line, hl, hs⟩
        simp [hs]
    · rw [if_neg hj]
  policy := write_policy ..
  valid hv j line hl := by
    rw [line?_write] at hl
    split at hl
    · obtain ⟨l, hold, rfl⟩ := Option.map_eq_some_iff.mp hl
      split
      · simp
      · exact hv key l hold
    · exact hv j line hl

theorem changes_write (h : x.Owns key) : (x.write key value).2.Changes x key (some value) := by
  obtain ⟨line, hl, hs⟩ := h
  have hline (j : Key) : (x.write key value).2.store.line? j =
      if j = key then some
        { line.touch with
          value := value, state := .modified, version := line.version + 1, dirty := true }
      else x.store.line? j := by
    rw [line?_write, Option.mem_def.mp hl, Option.map_some, if_pos hs]
  exact changes_of_line hline (write_policy ..) (by rintro _ ⟨⟩; simp)

theorem changes_handleInvalidation : (x.handleInvalidation key).Changes x key none := by
  refine changes_of_line (o := none) (fun j => line?_handleInvalidation ..) ?_ (by simp)
  simp only [handleInvalidation]
  split <;> simp

theorem changes_deleteInvalidated : (x.deleteInvalidated key).Changes x key none :=
  changes_of_line (o := none) (fun j => Store.line?_invalidate ..) (Store.policy_invalidate ..)
    (by simp)

variable [DecidableEq Name]

theorem alike_handleFetchRequest (requester : Name) :
    (x.handleFetchRequest nodeId key requester).2.Alike x := by
  refine alike_of_map (fun j => line?_handleFetchRequest ..) ?_ (fun l => ?_) fun l h => ?_
  · exact handleCoherenceMessage_policy x nodeId (.fetch key requester)
  · rw [CacheLine.demote_value, CacheLine.touch_value]
  · cases l.touch.demote_state with
    | inl hs => simp [hs]
    | inr hs => exact absurd hs.2 h

theorem handleFetchRequest_answer (h : x.Valid) (requester : Name) :
    match x.value? key with
    | none => (x.handleFetchRequest nodeId key requester).1 = .notFound
    | some v => ∃ state, (x.handleFetchRequest nodeId key requester).1 = .found v state nodeId := by
  have hanswer := handleFetchRequest_fst x nodeId key requester rfl
  cases hl : x.store.line? key with
  | none =>
    simp only [value?, hl, Option.map_none]
    cases hanswer with
    | inl hnone => exact hnone.1
    | inr hline =>
      obtain ⟨line, hm, _⟩ := hline
      cases hl.symm.trans hm
  | some line =>
    simp only [value?, hl, Option.map_some]
    cases hanswer with
    | inl hnone => exact absurd ⟨line, hl, h key line hl⟩ hnone.2
    | inr hline =>
      obtain ⟨l, hm, _, state, ha⟩ := hline
      cases hl.symm.trans hm
      exact ⟨state, ha⟩

omit [DecidableEq Name] in
theorem alike_of_lines (hlines : ∀ j, x'.store.line? j = x.store.line? j)
    (hpolicy : x'.store.policy = x.store.policy) : x'.Alike x where
  value j := congrArg (Option.map _) (hlines j)
  policy := hpolicy
  valid h j line hl := h j line ((hlines j).symm.trans hl)

/-- A read that evicts nothing stores the value or leaves the lines as they are. -/
theorem readFetched_cases (v : Val) (sourceNode : Option Name) (hev : x.store.evicts key = false) :
    (x.readFetched nodeId key v sourceNode).1 = .error .keyError ∧
        (x.readFetched nodeId key v sourceNode).2.Alike x ∨
      (x.readFetched nodeId key v sourceNode).1 = .ok (some v) ∧
        ((x.readFetched nodeId key v sourceNode).2.Alike x ∨
          (x.readFetched nodeId key v sourceNode).2.Changes x key (some (some v))) := by
  have hstore := readFetched_store x nodeId key v sourceNode
  have hpolicy : (x.readFetched nodeId key v sourceNode).2.store.policy = x.store.policy := by
    rw [hstore, Store.policy_put]
  cases x.store.put_cases key
    { value := some v, state := if sourceNode.isSome then .shared else .exclusive } with
  | raised hr hlines =>
    rw [← hstore] at hlines
    exact .inl ⟨by simp only [readFetched, hr], alike_of_lines x hlines hpolicy⟩
  | kept hr hlines =>
    rw [← hstore] at hlines
    exact .inr ⟨by simp only [readFetched, hr], .inl (alike_of_lines x hlines hpolicy)⟩
  | stored hr hlines =>
    rw [← hstore] at hlines
    refine .inr ⟨by simp only [readFetched, hr], .inr (changes_of_line hlines hpolicy ?_)⟩
    rintro _ ⟨⟩
    dsimp only
    split <;> simp
  | evicted k hr => exact absurd hr (Store.put_ne_evicted _ hev k)

/-- A write under the LRU policy, which leaves a line that is there, finds no line of the key,
or one with the value that it writes. -/
def Rebinds (x : CacheNode Name Key Val) (key : Key) (value : Option Val) : Prop :=
  x.store.policy = .lru → x.value? key = none ∨ x.value? key = some value

instance [DecidableEq Val] (x : CacheNode Name Key Val) (key : Key) (value : Option Val) :
    Decidable (x.Rebinds key value) :=
  inferInstanceAs (Decidable (_ → _))

omit [DecidableEq Name] in
theorem writeInvalidated_of_accepts (hev : x.store.evicts key = false)
    (hacc : x.store.Accepts key) (hbind : x.Rebinds key value) :
    (x.writeInvalidated nodeId key value).1 = .ok () ∧
      (x.writeInvalidated nodeId key value).2.Changes x key (some value) := by
  have hstore := writeInvalidated_store x nodeId key value
  have hpolicy : (x.writeInvalidated nodeId key value).2.store.policy = x.store.policy := by
    rw [hstore, Store.policy_put]
  cases x.store.put_cases key { value := value, state := .modified, dirty := true } with
  | raised hr => exact absurd hr (Store.put_ne_raised _ hacc.2 _)
  | kept hr hlines hkept =>
    rw [← hstore] at hlines
    have halike := alike_of_lines x hlines hpolicy
    refine ⟨by simp only [writeInvalidated, hr], fun j => ?_, hpolicy, halike.valid⟩
    rw [halike.value]
    split
    · rename_i hj
      obtain ⟨hp, hl⟩ := hkept.resolve_right fun hnone => not_le.mpr hacc.1 hnone.2
      rw [hj]
      exact (hbind hp).resolve_left fun hnone => hl (value?_eq_none.mp hnone)
    · rfl
  | stored hr hlines =>
    rw [← hstore] at hlines
    refine ⟨by simp only [writeInvalidated, hr], changes_of_line hlines hpolicy ?_⟩
    rintro _ ⟨⟩
    simp
  | evicted k hr => exact absurd hr (Store.put_ne_evicted _ hev k)

end DistSync.Cache.CacheNode
