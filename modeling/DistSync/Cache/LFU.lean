import DistSync.Cache.Buckets

/-! The LFU policy: how long its two structures agree, and when it evicts a line that was got
least often. -/
namespace DistSync.Cache
variable {Key Val : Type} [DecidableEq Key]

namespace LFUCache

/-- The call leaves no key in a bucket that is not its own: no cached key is invalidated, and none
is put again that was got twice. -/
def KeepsBuckets (c : LFUCache Key Val) : StoreCall Key Val → Prop
  | .get _ => True
  | .put key _ => ∀ line ∈ c.cache.get? key, line.accessCount ≤ 2
  | .invalidate key => key ∉ c.cache.keys

instance (c : LFUCache Key Val) : (a : StoreCall Key Val) → Decidable (c.KeepsBuckets a)
  | .get _ => isTrue trivial
  | .put key _ =>
    inferInstanceAs (Decidable (∀ line ∈ c.cache.get? key, line.accessCount ≤ 2))
  | .invalidate key => inferInstanceAs (Decidable (key ∉ c.cache.keys))

end LFUCache

def StoreCall.Fresh : StoreCall Key Val → Prop
  | .put _ line => line.accessCount = 1
  | _ => True

instance : (a : StoreCall Key Val) → Decidable a.Fresh
  | .get _ => isTrue trivial
  | .put _ line => inferInstanceAs (Decidable (line.accessCount = 1))
  | .invalidate _ => isTrue trivial

def lfuCache (capacity : Int) : System (LFUCache Key Val) (StoreCall Key Val) where
  init := { capacity := capacity }
  step c a := if a.Fresh then some (c.call a).2 else none

theorem lfuCache_step {capacity : Int} {c t : LFUCache Key Val} {a : StoreCall Key Val}
    (h : (lfuCache capacity).step c a = some t) : a.Fresh ∧ t = (c.call a).2 := by
  simp only [lfuCache, Option.ite_none_right_eq_some, Option.some.injEq] at h
  exact ⟨h.1, h.2.symm⟩

namespace LFUCache

theorem put_bound {c : LFUCache Key Val} (hpos : 0 < c.capacity) {key : Key}
    {l : CacheLine Val} (hl : c.cache.get? key = some l) (line : CacheLine Val) :
    c.put key line = (.ok none, { c with cache := c.cache.set key line }.updateFreq key line) := by
  rw [put, if_neg (not_le.mpr hpos), hl]

namespace Tidy
variable {c : LFUCache Key Val} (h : c.Tidy)
include h

theorem invalidate {key : Key} (hkey : key ∉ c.cache.keys) : (c.invalidate key).2.Tidy := by
  have hsame : c.cache.erase key = c.cache := Dict.erase_of_none (Dict.get?_eq_none.mpr hkey)
  rw [LFUCache.invalidate, hsame]
  exact h

theorem call {a : StoreCall Key Val} (ha : a.Fresh) (hg : c.KeepsBuckets a) :
    (c.call a).1 ≠ .raised ∧ (c.call a).2.Tidy := by
  cases a with
  | get key => exact ⟨nofun, h.get key⟩
  | put key line =>
    rw [LFUCache.call]
    cases hl : c.cache.get? key with
    | none =>
      obtain ⟨⟨k, hk⟩, ht⟩ := h.put hl ha
      rw [hk]
      exact ⟨nofun, ht⟩
    | some l =>
      rw [put_bound h.positive hl]
      exact ⟨nofun, h.putAgain hl ha (hg l hl)⟩
  | invalidate key => exact ⟨nofun, h.invalidate hg⟩

theorem keepsBuckets {a : StoreCall Key Val} (ha : a.Fresh) (hc : (c.call a).2.Consistent) :
    c.KeepsBuckets a := by
  cases a with
  | get key => trivial
  | put key line =>
    intro l hl
    rw [LFUCache.call, put_bound h.positive hl, updateFreq_with] at hc
    have hline : line.accessCount = 1 := ha
    have hbucket (j : Nat) := bucket_updateFreq c key j hline.ge
    have hone : key ∈ ((c.updateFreq key line).bucket 1).keys := by
      rw [hbucket, if_pos hline]
      exact (Dict.mem_keys_set _).mpr (.inl rfl)
    -- a key that was got twice is in another bucket, which it does not leave
    by_contra hoften
    have hfreq : freqOf l = l.accessCount - 1 := by
      simp only [freqOf]
      omega
    have hold : key ∈ ((c.updateFreq key line).bucket (freqOf l)).keys := by
      rw [hbucket, if_neg (by omega), if_neg (by omega)]
      exact (h.filed key _).mpr ⟨l, hl, rfl⟩
    have hmem : key ∈ (c.cache.set key line).keys := (Dict.mem_keys_set _).mpr (.inl rfl)
    have hsame := (hc.filed key hmem).unique hone hold
    omega
  | invalidate key =>
    intro hkey
    obtain ⟨l, hl⟩ := Option.isSome_iff_exists.mp ((Dict.mem_keys _).mp hkey)
    have hin : key ∈ (c.bucket (freqOf l)).keys := (h.filed key _).mpr ⟨l, hl, rfl⟩
    exact ((Dict.mem_keys_erase _).mp (hc.cached _ key hin)).1 rfl

end Tidy

theorem tidy_init {capacity : Int} (hc : 1 ≤ capacity) :
    ({ capacity := capacity } : LFUCache Key Val).Tidy where
  positive := hc
  counted := fun _ _ hl => by cases hl
  filed := fun k freq => iff_of_false List.not_mem_nil (by rintro ⟨l, hl, -⟩; cases hl)
  first := rfl
  room := le_of_lt hc
  occupied := fun k hk => by cases hk
  least := fun _ _ hl => by cases hl

/-- The buckets stay those of the cached keys, and no call raises an error, exactly as long as no
cached key is invalidated and none is put again that was got twice. -/
theorem consistent_along_iff (capacity : Int) (hc : 1 ≤ capacity)
    (as : List (StoreCall Key Val)) :
    (lfuCache capacity).Along (fun c a t => (c.call a).1 ≠ .raised ∧ t.Consistent)
        (lfuCache capacity).init as ↔
      (lfuCache capacity).Along (fun c a _ => c.KeepsBuckets a) (lfuCache capacity).init as := by
  refine System.along_iff_of_kept (I := Tidy) (fun c a t h ht => ?_) (fun c a t h hg ht => ?_)
    (tidy_init hc) as
  · obtain ⟨ha, rfl⟩ := lfuCache_step ht
    refine ⟨fun hp => h.keepsBuckets ha hp.2, fun hg => ?_⟩
    obtain ⟨hr, ht⟩ := h.call ha hg
    exact ⟨hr, ht.consistent ht.room⟩
  · obtain ⟨ha, rfl⟩ := lfuCache_step ht
    exact (h.call ha hg).2

theorem consistent_putAgain : (lfuCache 1).Along
    (fun c a t => (c.call a).1 ≠ .raised ∧ t.Consistent) (lfuCache 1).init
    ([.put 0 {value := some 1}, .get 0, .put 0 { value := some 2 }, .put 1 { value := some 3 }] :
      List (StoreCall Nat Nat)) :=
  (consistent_along_iff 1 (by decide) _).mpr (by decide)

/-- A key is invalidated, and the next eviction is to be of this key. -/
def evictsInvalidated : List (StoreCall Nat Nat) :=
  [.put 0 { value := some 1 }, .put 1 { value := some 1 }, .invalidate 0,
    .put 2 { value := some 1 }, .put 3 { value := some 1 }]

theorem not_consistent_evictsInvalidated : ¬ (lfuCache 2).Along
    (fun c a t => (c.call a).1 ≠ .raised ∧ t.Consistent) (lfuCache 2).init evictsInvalidated := by
  intro h
  have hraised : ¬ (lfuCache 2).Along (fun c a _ => (c.call a).1 ≠ .raised) (lfuCache 2).init
      evictsInvalidated := by
    decide
  exact hraised (h.mono fun _ _ _ hp => hp.1)

/-- Gets, and puts of lines as a node makes them for keys that are not cached. -/
def Fills (c : LFUCache Key Val) : StoreCall Key Val → Prop
  | .get _ => True
  | .put key line => key ∉ c.cache.keys ∧ line.accessCount = 1
  | .invalidate _ => False

instance (c : LFUCache Key Val) : (a : StoreCall Key Val) → Decidable (c.Fills a)
  | .get _ => isTrue trivial
  | .put _ _ => inferInstanceAs (Decidable (_ ∧ _))
  | .invalidate _ => isFalse id

def filling (capacity : Int) : System (LFUCache Key Val) (StoreCall Key Val) where
  init := { capacity := capacity }
  step c a := if c.Fills a then some (c.call a).2 else none

def EvictsLeast (c : LFUCache Key Val) (a : StoreCall Key Val) : Prop :=
  ∀ e, (c.call a).1 = .evicted (some e) → ∃ line, c.cache.get? e = some line ∧
    ∀ k l, c.cache.get? k = some l → line.accessCount ≤ l.accessCount

/-- When a new key meets a full cache, the oldest of the lines that were got at most once was
never got, or all lines were got. -/
def OldestUnused (c : LFUCache Key Val) : StoreCall Key Val → Prop
  | .put _ _ => c.capacity ≤ size c.cache →
    ∀ e ∈ (c.cache.entries.filter fun e => rarely e.2).head?,
      e.2.accessCount = 1 ∨ ∀ e' ∈ c.cache.entries, e'.2.accessCount ≠ 1
  | _ => True

instance (c : LFUCache Key Val) : (a : StoreCall Key Val) → Decidable (c.OldestUnused a)
  | .get _ => isTrue trivial
  | .put _ _ => inferInstanceAs (Decidable (_ → ∀ e ∈ (List.filter _ _).head?, _))
  | .invalidate _ => isTrue trivial

theorem Tidy.fill {c : LFUCache Key Val} (h : c.Tidy) {a : StoreCall Key Val} (ha : c.Fills a) :
    (c.call a).2.Tidy := by
  cases a with
  | get key => exact h.get key
  | put key line => exact (h.put (Dict.get?_eq_none.mpr ha.1) ha.2).2
  | invalidate key => exact ha.elim

theorem Tidy.evictsLeast_iff {c : LFUCache Key Val} (h : c.Tidy) {a : StoreCall Key Val}
    (ha : c.Fills a) : c.EvictsLeast a ↔ c.OldestUnused a := by
  cases a with
  | get key =>
    refine iff_of_true (fun e he => ?_) trivial
    cases he
  | invalidate key => exact ha.elim
  | put key line =>
    cases h.put_new (Dict.get?_eq_none.mpr ha.1) line with
    | room hsize hout =>
      refine iff_of_true (fun e he => ?_) fun hfull => absurd hsize (not_lt.mpr hfull)
      rw [LFUCache.call, hout] at he
      cases he
    | full e rest l hsize hpop hl hfreq hout =>
      have hleast : c.EvictsLeast (.put key line) ↔
          ∀ k l', c.cache.get? k = some l' → l.accessCount ≤ l'.accessCount := by
        simp only [EvictsLeast, LFUCache.call, hout, Outcome.ofPut, Outcome.evicted.injEq,
          Option.some.injEq, forall_eq', hl, exists_eq_left']
      rw [hleast, OldestUnused, imp_iff_right hsize]
      cases hrare : c.cache.entries.filter fun e => rarely e.2 with
      | nil =>
        refine iff_of_true (fun k l' hl' => ?_) fun e he => absurd he (Option.not_mem_none e)
        have hoften (j : Key) (x : CacheLine Val) (hx : c.cache.get? j = some x) :
            freqOf x = x.accessCount - 1 := by
          have := List.filter_eq_nil_iff.mp hrare _ (Dict.get?_eq_some.mp hx)
          simp only [rarely, decide_eq_true_eq] at this
          simp only [freqOf]
          omega
        have hmin := h.least k l' hl'
        rw [← hfreq, hoften _ l hl, hoften k l' hl'] at hmin
        have := h.counted k l' hl'
        omega
      | cons e₀ es =>
        have hin : e₀ ∈ c.cache.entries ∧ rarely e₀.2 = true :=
          List.mem_filter.mp (hrare ▸ List.mem_cons_self)
        have hl₀ : c.cache.get? e₀.1 = some e₀.2 := Dict.get?_eq_some.mpr hin.1
        -- the first bucket is not empty, and its first key is the one that goes
        have hone : c.minFreq = 1 := by
          have := h.least _ _ hl₀
          rw [freqOf_eq_one.mpr hin.2, ← hfreq] at this
          exact hfreq ▸ le_antisymm this (one_le_freqOf l)
        have hfirst := h.first
        rw [Dict.keysWhere, hrare, List.map_cons, ← hone, Dict.keys_popFirst hpop] at hfirst
        rw [(List.cons.inj hfirst).1] at hl
        cases hl₀.symm.trans hl
        simp only [List.head?_cons, Option.mem_def, Option.some.injEq, forall_eq']
        simp only [rarely, decide_eq_true_eq] at hin
        have hcount := h.counted _ _ hl₀
        constructor
        · intro hle
          refine or_iff_not_imp_left.mpr fun htwo e' he' hnew => ?_
          have := hle e'.1 e'.2 (Dict.get?_eq_some.mpr he')
          omega
        · intro hor k l' hl'
          have hpos := h.counted k l' hl'
          rcases hor with hor | hor
          · omega
          · have hne : l'.accessCount ≠ 1 := hor (k, l') (Dict.get?_eq_some.mp hl')
            omega

/-- An eviction takes a line that was got least often exactly as long as the oldest of the lines
got at most once was never got, or all were. -/
theorem evictsLeast_along_iff (capacity : Int) (hc : 1 ≤ capacity)
    (as : List (StoreCall Key Val)) :
    (filling capacity).Along (fun c a _ => c.EvictsLeast a) (filling capacity).init as ↔
      (filling capacity).Along (fun c a _ => c.OldestUnused a) (filling capacity).init as := by
  refine System.along_iff_of_kept (I := Tidy) (fun c a t h ht => ?_) (fun c a t h _ ht => ?_)
    (tidy_init hc) as
  · simp only [filling, Option.ite_none_right_eq_some] at ht
    exact h.evictsLeast_iff ht.1
  · simp only [filling, Option.ite_none_right_eq_some, Option.some.injEq] at ht
    obtain ⟨ha, rfl⟩ := ht
    exact h.fill ha

theorem evictsLeast_gotTwice : (filling 2).Along (fun c a _ => c.EvictsLeast a) (filling 2).init
    ([.put 0 { value := some 1 }, .put 1 { value := some 1 }, .get 1, .get 1,
      .put 2 { value := some 1 }] : List (StoreCall Nat Nat)) :=
  (evictsLeast_along_iff 2 (by decide) _).mpr (by decide)

/-- The older of two keys is got once and then evicted. -/
def evictsGotten : List (StoreCall Nat Nat) :=
  [.put 0 { value := some 1 }, .put 1 { value := some 1 }, .get 0, .put 2 { value := some 1 }]

theorem not_evictsLeast_evictsGotten : ¬ (filling 2).Along (fun c a _ => c.EvictsLeast a)
    (filling 2).init evictsGotten := by
  intro h
  have hgotten : ¬ (filling 2).Along (fun c a _ => ¬ ((c.call a).1 = .evicted (some 0) ∧
      (c.cache.get? 0).map CacheLine.accessCount = some 2 ∧
      (c.cache.get? 1).map CacheLine.accessCount = some 1)) (filling 2).init evictsGotten := by
    decide
  refine hgotten (h.mono ?_)
  rintro c a - hp ⟨he, h0, h1⟩
  obtain ⟨line, hline, hle⟩ := hp 0 he
  obtain ⟨l, hl, hone⟩ := Option.map_eq_some_iff.mp h1
  have hleast := hle 1 l hl
  rw [hline, Option.map_some, Option.some.injEq] at h0
  omega

end LFUCache
end DistSync.Cache
