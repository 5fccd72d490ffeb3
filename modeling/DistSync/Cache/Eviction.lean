import DistSync.Cache.Completion

/-! Lines that leave the store. Only an invalidation by a peer writes a dirty line back before,
and only if the line is modified: an eviction, a DELETE or a line put over another one take it
with its data. -/
namespace DistSync.Cache
variable {Name Key Val : Type} [DecidableEq Key]

/-- There is a line of the key, and whatever is put takes its place. -/
def Store.Overwrites (s : Store Key Val) (key : Key) : Prop :=
  s.line? key ≠ none ∧ ∀ line, (s.put key line).2.line? key = some line

def LocalAction.Overwrites (x : CacheNode Name Key Val) (key : Key) :
    LocalAction Name Key Val → Prop
  | found j _ _ => j = key ∧ x.store.Overwrites key
  | invalidated j _ => j = key ∧ x.store.Overwrites key
  | _ => False

/-- A dirty line that the step from `x` to `y` takes out of the store is written back in it. -/
def LosesNothing (x : CacheNode Name Key Val) (a : LocalAction Name Key Val)
    (y : CacheNode Name Key Val) : Prop :=
  ∀ key line, x.store.line? key = some line → line.dirty = true →
    (y.store.line? key = none ∨ a.Overwrites x key) →
      ∃ line', y.writebacks = (key, line') :: x.writebacks ∧
        line'.value = line.value ∧ line'.version = line.version

/-- The key whose line has to go when a line of `key` is put. -/
def Store.displaced (s : Store Key Val) (key : Key) : Option Key :=
  if s.policy = .lfu ∧ 0 < s.capacity ∧ s.line? key ≠ none then some key else s.victim key

/-- No dirty line is displaced or deleted, and no dirty one that is not modified invalidated. -/
def SparesDirty (x : CacheNode Name Key Val) : LocalAction Name Key Val → Prop
  | .found key _ _ =>
    ∀ k ∈ x.store.displaced key, ∀ line ∈ x.store.line? k, line.dirty = false
  | .invalidated key _ =>
    ∀ k ∈ x.store.displaced key, ∀ line ∈ x.store.line? k, line.dirty = false
  | .deleted key => ∀ line ∈ x.store.line? key, line.dirty = false
  | .invalidate key => ∀ line ∈ x.store.line? key, line.dirty = true → line.state = .modified
  | _ => True

section Put
variable (s : Store Key Val) (key : Key) (line : CacheLine Val) {j : Key} {l : CacheLine Val}

theorem Store.overwrites_iff :
    s.Overwrites key ↔ s.policy = .lfu ∧ 0 < s.capacity ∧ s.line? key ≠ none := by
  constructor
  · intro h
    obtain ⟨l, hl⟩ := Option.ne_none_iff_exists'.mp h.1
    -- a line that differs from the one that is there
    have hput := h.2 { l with version := l.version + 1 }
    have hother : some l ≠ some { l with version := l.version + 1 } := fun he =>
      absurd (congrArg CacheLine.version (Option.some.inj he)) (by dsimp only; omega)
    cases s.put_cases key { l with version := l.version + 1 } with
    | raised _ hlines => exact absurd (hl.symm.trans ((hlines key).symm.trans hput)) hother
    | kept _ hlines => exact absurd (hl.symm.trans ((hlines key).symm.trans hput)) hother
    | stored _ _ hbind hcap =>
      cases hp : s.policy with
      | lru => exact absurd (hbind hp) h.1
      | lfu => exact ⟨rfl, hcap, h.1⟩
    | evicted _ _ _ hbind hcap =>
      cases hp : s.policy with
      | lru => exact absurd (hbind hp) h.1
      | lfu => exact ⟨rfl, hcap hp, h.1⟩
  · rintro ⟨hlfu, hcap, hl⟩
    refine ⟨hl, fun line => (put_takes line hcap ⟨fun hp => ?_, fun k hk => ?_⟩).2⟩
    · cases hlfu.symm.trans hp
    · rw [victim_of_stored hl] at hk
      cases hk

theorem Store.put_evicted {k : Key} (h : (s.put key line).1 = .ok (some k)) :
    s.line? key = none := by
  by_contra hl
  cases put_of_no_victim line (victim_of_stored hl) with
  | inl hr => cases h.symm.trans hr
  | inr hr => cases h.symm.trans hr.2.2

/-- `put` takes out the line of the key that it evicts, and no other. -/
theorem Store.line?_put_eq_none (hl : s.line? j = some l) :
    (s.put key line).2.line? j = none ↔ s.victim key = some j := by
  have hstays (hsame : (s.put key line).2.line? j = s.line? j) :
      (s.put key line).2.line? j ≠ none := by
    simp [hsame, hl]
  cases hv : s.victim key with
  | none =>
    refine iff_of_false ?_ nofun
    cases s.put_cases key line with
    | raised _ hlines => exact hstays (hlines j)
    | kept _ hlines => exact hstays (hlines j)
    | stored _ hlines =>
      rw [hlines]
      split
      · simp
      · simp [hl]
    | evicted k hr =>
      cases put_of_no_victim line hv with
      | inl hno => cases hr.symm.trans hno
      | inr hno => cases hr.symm.trans hno.2.2
  | some k =>
    have hr := put_of_victim line hv
    cases s.put_cases key line with
    | raised hraised hlines =>
      refine iff_of_false (hstays (hlines j)) fun hj => ?_
      cases hj
      rw [hraised, if_neg (by simp [hl])] at hr
      cases hr
    | kept hok =>
      rw [hok] at hr
      split at hr <;> cases hr
    | stored hok =>
      rw [hok] at hr
      split at hr <;> cases hr
    | evicted k' hok hlines =>
      have hjk : j ≠ key := fun hj =>
        absurd (hl.symm.trans (hj ▸ put_evicted s key line hok)) (by simp)
      rw [hok] at hr
      split at hr
      · cases hr
      · cases hr
        rw [hlines, if_neg hjk, Option.some.injEq, eq_comm (a := k)]
        split
        · rename_i hj
          exact iff_of_true rfl hj
        · rename_i hj
          exact iff_of_false (by simp [hl]) hj

theorem Store.displaced_iff (hl : s.line? j = some l) :
    (s.put key line).2.line? j = none ∨ key = j ∧ s.Overwrites j ↔ s.displaced key = some j := by
  rw [line?_put_eq_none s key line hl, overwrites_iff, displaced]
  split
  · rename_i h
    rw [victim_of_stored h.2.2, Option.some.injEq]
    constructor
    · rintro (hno | ⟨hj, -⟩)
      · cases hno
      · exact hj
    · intro hj
      exact .inr ⟨hj, hj ▸ h⟩
  · rename_i h
    refine or_iff_left fun hj => h ?_
    rw [hj.1]
    exact hj.2

end Put

section Step
variable {x y : CacheNode Name Key Val} {a : LocalAction Name Key Val} {key : Key}

theorem losesNothing_of_quiet (hquiet : y.writebacks = x.writebacks) :
    LosesNothing x a y ↔ ∀ key line, x.store.line? key = some line →
      (y.store.line? key = none ∨ a.Overwrites x key) → line.dirty = false := by
  constructor
  · intro h key line hl hgone
    by_contra hd
    obtain ⟨line', hlog, -⟩ := h key line hl (Bool.eq_true_of_not_eq_false hd) hgone
    exact List.cons_ne_self _ _ (hlog.symm.trans hquiet)
  · intro h key line hl hd hgone
    rw [h key line hl hgone] at hd
    cases hd

theorem LosesNothing.of_kept (hkept : ∀ key, x.store.line? key ≠ none → y.store.line? key ≠ none)
    (hover : ∀ key, ¬ a.Overwrites x key) : LosesNothing x a y := by
  intro key line hl _ hgone
  cases hgone with
  | inl hnone => exact absurd hnone (hkept key (by simp [hl]))
  | inr hput => exact absurd hput (hover key)

theorem kept_of_change {f : CacheLine Val → CacheLine Val} (hy : ∀ j, y.store.line? j =
    if j = key then (x.store.line? key).map f else x.store.line? j) (j : Key)
    (hl : x.store.line? j ≠ none) : y.store.line? j ≠ none := by
  rw [hy]
  split
  · rename_i hj
    simpa [← hj] using hl
  · exact hl

theorem losesNothing_put (hquiet : y.writebacks = x.writebacks) {line : CacheLine Val}
    (hy : y.store = (x.store.put key line).2)
    (ha : ∀ j, a.Overwrites x j ↔ key = j ∧ x.store.Overwrites j) :
    LosesNothing x a y ↔
      ∀ k ∈ x.store.displaced key, ∀ line ∈ x.store.line? k, line.dirty = false := by
  rw [losesNothing_of_quiet hquiet]
  refine forall_congr' fun k => ?_
  constructor
  · intro h hk l hl
    refine h l hl ?_
    rw [hy, ha]
    exact (x.store.displaced_iff key line hl).mpr hk
  · intro h l hl hgone
    rw [hy, ha] at hgone
    exact h ((x.store.displaced_iff key line hl).mp hgone) l hl

theorem CacheNode.writeInvalidated_writebacks (nodeId : Name) (value : Option Val) :
    (x.writeInvalidated nodeId key value).2.writebacks = x.writebacks := by
  simp only [writeInvalidated]
  split
  · rfl
  · simp only [handleEviction]
    split <;> rfl

theorem CacheNode.handleInvalidation_writebacks {line : CacheLine Val}
    (hl : x.store.line? key = some line) : (x.handleInvalidation key).writebacks =
      if line.state = .modified ∧ line.dirty = true then (key, line.touch) :: x.writebacks
      else x.writebacks := by
  simp only [handleInvalidation, Store.get_fst, hl, Option.map_some, CacheLine.touch_state]
  by_cases hs : line.state = .modified
  · cases hd : line.dirty <;> simp [hs, hd, writeback, CacheLine.touch]
  · simp [hs]

theorem losesNothing_handleInvalidation :
    LosesNothing x (.invalidate key) (x.handleInvalidation key) ↔
      ∀ line ∈ x.store.line? key, line.dirty = true → line.state = .modified := by
  constructor
  · intro h line hl hd
    by_contra hs
    have hgone : (x.handleInvalidation key).store.line? key = none := by
      rw [CacheNode.line?_handleInvalidation, if_pos rfl]
    obtain ⟨line', hlog, -⟩ := h key line hl hd (.inl hgone)
    rw [CacheNode.handleInvalidation_writebacks hl, if_neg fun hb => hs hb.1] at hlog
    exact List.cons_ne_self _ _ hlog.symm
  · intro h j line hl hd hgone
    have hj : j = key := by
      by_contra hj
      rw [CacheNode.line?_handleInvalidation, if_neg hj, hl] at hgone
      exact hgone.elim nofun id
    subst hj
    refine ⟨line.touch, ?_, rfl, rfl⟩
    rw [CacheNode.handleInvalidation_writebacks hl, if_pos ⟨h line hl hd, hd⟩]

variable [DecidableEq Name]

theorem CacheNode.readFetched_writebacks (nodeId : Name) (value : Val) (sourceNode : Option Name) :
    (x.readFetched nodeId key value sourceNode).2.writebacks = x.writebacks := by
  simp only [readFetched]
  split
  · rfl
  · simp only [addSharer, handleEviction]
    split <;> rfl

/-- A step loses nothing just if the dirty lines that have to go are written back. -/
theorem losesNothing_iff (nodeId : Name) (x : CacheNode Name Key Val)
    (a : LocalAction Name Key Val) : LosesNothing x a (a.act nodeId x) ↔ SparesDirty x a := by
  cases a with
  | read key =>
    exact iff_of_true (.of_kept (kept_of_change fun j => x.line?_read key j) fun _ => id) trivial
  | found key value sourceNode =>
    exact losesNothing_put (x.readFetched_writebacks nodeId value sourceNode)
      (x.readFetched_store nodeId key value sourceNode) fun _ => Iff.rfl
  | notFound key => exact iff_of_true (.of_kept (fun _ => id) fun _ => id) trivial
  | write key value =>
    exact iff_of_true (.of_kept (kept_of_change fun j => x.line?_write key j value) fun _ => id)
      trivial
  | invalidated key value =>
    exact losesNothing_put (x.writeInvalidated_writebacks nodeId value)
      (x.writeInvalidated_store nodeId key value) fun _ => Iff.rfl
  | delete key => exact iff_of_true (.of_kept (fun _ => id) fun _ => id) trivial
  | deleted key =>
    have hline (j : Key) : (x.deleteInvalidated key).store.line? j = none ↔
        j = key ∨ x.store.line? j = none := by
      rw [CacheNode.deleteInvalidated, Store.line?_invalidate]
      split <;> simp_all
    have hquiet : (x.deleteInvalidated key).writebacks = x.writebacks := rfl
    rw [LocalAction.act, losesNothing_of_quiet hquiet]
    constructor
    · intro h line hl
      exact h key line hl (.inl ((hline key).mpr (.inl rfl)))
    · intro h j line hl hgone
      have hj : j = key := ((hline j).mp (hgone.resolve_right id)).resolve_right (by simp [hl])
      exact h line (hj ▸ hl)
  | invalidate key => exact losesNothing_handleInvalidation
  | fetch key requester =>
    exact iff_of_true (.of_kept
      (kept_of_change fun j => x.line?_handleFetchRequest nodeId key j requester) fun _ => id) trivial
  | update key value version =>
    exact iff_of_true (.of_kept
      (kept_of_change fun j => x.line?_handleUpdate key j value version) fun _ => id) trivial

end Step

section Runs
variable [DecidableEq Name] [DecidableEq Val]

/-- A run of a node loses nothing exactly if no dirty line is displaced, deleted, or invalidated
without being modified. -/
theorem losesNothing_along_iff (nodeId : Name) (policy : Policy) (capacity : Int)
    (as : List (LocalAction Name Key Val)) :
    (localNode nodeId policy capacity).Along (fun s a t => LosesNothing s.node a t.node)
        (localNode nodeId policy capacity).init as ↔
      (localNode nodeId policy capacity).Along (fun s a _ => SparesDirty s.node a)
        (localNode nodeId policy capacity).init as := by
  refine System.along_congr (fun s a t ht => ?_) _ as
  rw [localNode_step ht]
  exact losesNothing_iff nodeId s.node a

/-- Two writes to a node with room for one line. -/
def twoWrites : List (LocalAction Nat Nat Nat) :=
  [.write 0 (some 1), .invalidated 0 (some 1), .write 1 (some 2)]

theorem not_losesNothing_twoWrites :
    ∃ s, (localNode 0 .lru 1).run (localNode 0 .lru 1).init twoWrites = some s ∧
      ∃ t, (localNode 0 .lru 1).step s (.invalidated 1 (some 2)) = some t ∧
        ¬ LosesNothing s.node (.invalidated 1 (some 2)) t.node := by
  have hrun : ((localNode 0 .lru 1).run (localNode 0 .lru 1).init twoWrites).any
      (fun s : LocalNode Nat Nat Nat => (∃ line ∈ s.node.store.line? 0, line.dirty = true) ∧
        ((localNode 0 .lru 1).step s (.invalidated 1 (some 2))).any fun t =>
          (t.node.store.line? 0).isNone ∧ t.node.writebacks.length = 0) = true := by
    decide +kernel
  obtain ⟨s, hs, hx⟩ := (Option.any_eq_true ..).mp hrun
  obtain ⟨⟨line, hl, hd⟩, ht⟩ := of_decide_eq_true hx
  obtain ⟨t, ht, hgone⟩ := (Option.any_eq_true ..).mp ht
  obtain ⟨hnone, hlog⟩ := of_decide_eq_true hgone
  refine ⟨s, hs, t, ht, fun h => ?_⟩
  obtain ⟨line', hback, -⟩ := h 0 line hl hd (.inl (Option.isNone_iff_eq_none.mp hnone))
  rw [hback] at hlog
  cases hlog

end Runs

end DistSync.Cache
