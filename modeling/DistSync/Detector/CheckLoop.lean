import DistSync.Run
import DistSync.Detector.FailureDetector

/-! The loop that announces failures and recoveries. A pass takes the alive nodes once and
stands still at every callback, where any other call may run before it goes on with what
it has. -/
namespace DistSync.Detector

inductive Notice
  | failed
  | recovered
  | removed
  deriving DecidableEq

structure Entry where
  node : String
  notice : Notice
  monitored : Bool
  deriving DecidableEq

/-- Where `run_check_loop` stands: in a callback it holds the alive nodes of the pass and the
nodes that it has still to announce. -/
inductive Pass
  | stopped
  | sleeping
  | failing (currentAlive : Finset String) (pending : List String)
  | recovering (currentAlive : Finset String) (pending : List String)
  deriving DecidableEq

/-- The failure detector with its loop. The log has the latest entry first. -/
structure Watch (δ : Type) where
  detector : FailureDetector δ := {}
  pass : Pass := .stopped
  log : List Entry := []

/-- The calls, and the steps of the loop: it wakes up, or the callback it awaits returns.
`order` is an order in which the sets of the pass may be gone through. -/
inductive Call (τ : Type)
  | addNode (n : String)
  | removeNode (n : String)
  | recordHeartbeat (n : String) (now : τ)
  | onFailure
  | onRecovery
  | start
  | stop
  | check (now : τ) (order : List String)
  | resume (order : List String)

namespace Watch
variable {τ δ : Type}

def note (s : Watch δ) (notice : Notice) (n : String) : Watch δ :=
  { s with log := ⟨n, notice, s.detector.Monitored n⟩ :: s.log }

/-- The end of a pass: the loop sleeps again unless `stop` was called. -/
def finish (s : Watch δ) (currentAlive : Finset String) : Watch δ :=
  { s with
    detector := { s.detector with knownAlive := currentAlive }
    pass := if s.detector.running then .sleeping else .stopped }

def announceRecovered (s : Watch δ) (currentAlive : Finset String) : List String → Watch δ
  | [] => s.finish currentAlive
  | n :: pending =>
    let s := s.note .recovered n
    if s.detector.onRecovery then { s with pass := .recovering currentAlive pending }
    else s.announceRecovered currentAlive pending

/-- The nodes to announce as recovered are computed after all failures are announced. -/
def announceFailed (s : Watch δ) (currentAlive : Finset String) (order : List String) :
    List String → Watch δ
  | [] => s.announceRecovered currentAlive
      (order.filter (· ∈ currentAlive \ s.detector.knownAlive))
  | n :: pending =>
    let s := s.note .failed n
    if s.detector.onFailure then { s with pass := .failing currentAlive pending }
    else s.announceFailed currentAlive order pending

/-- An order goes through each node of a set once. -/
def Covers (order : List String) (nodes : Finset String) : Prop :=
  order.Nodup ∧ nodes ⊆ order.toFinset

instance (order : List String) (nodes : Finset String) : Decidable (Covers order nodes) :=
  inferInstanceAs (Decidable (_ ∧ _))

theorem mem_filter_of_subset {order : List String} {nodes : Finset String} {n : String}
    (h : nodes ⊆ order.toFinset) : n ∈ order.filter (· ∈ nodes) ↔ n ∈ nodes := by
  rw [List.mem_filter, decide_eq_true_eq]
  exact and_iff_right_of_imp fun hn => List.mem_toFinset.mp (h hn)

variable (A : Accrual τ δ)

def step (s : Watch δ) : Call τ → Option (Watch δ)
  | .addNode n => some { s with detector := s.detector.addNode A n }
  | .removeNode n =>
    let s := s.note .removed n
    some { s with detector := s.detector.removeNode n }
  | .recordHeartbeat n now => some { s with detector := s.detector.recordHeartbeat A n now }
  | .onFailure => some { s with detector := { s.detector with onFailure := true } }
  | .onRecovery => some { s with detector := { s.detector with onRecovery := true } }
  | .start => match s.pass with
    | .stopped => some { s with
        detector := { s.detector with running := true }
        pass := .sleeping }
    | _ => none
  | .stop => some { s with detector := { s.detector with running := false } }
  | .check now order =>
    let currentAlive := s.detector.getAliveNodes A now
    match s.pass with
    | .sleeping =>
      if Covers order (s.detector.knownAlive ∪ currentAlive) then
        some (s.announceFailed currentAlive order
          (order.filter (· ∈ s.detector.knownAlive \ currentAlive)))
      else none
    | _ => none
  | .resume order => match s.pass with
    | .failing currentAlive pending =>
      if Covers order currentAlive then some (s.announceFailed currentAlive order pending)
      else none
    | .recovering currentAlive pending => some (s.announceRecovered currentAlive pending)
    | _ => none

inductive Transition (s : Watch δ) : Call τ → Watch δ → Prop
  | addNode (n : String) :
    Transition s (.addNode n) { s with detector := s.detector.addNode A n }
  | removeNode (n : String) :
    Transition s (.removeNode n) { s.note .removed n with detector := s.detector.removeNode n }
  | recordHeartbeat (n : String) (now : τ) : Transition s (.recordHeartbeat n now)
      { s with detector := s.detector.recordHeartbeat A n now }
  | onFailure : Transition s .onFailure { s with detector := { s.detector with onFailure := true } }
  | onRecovery :
    Transition s .onRecovery { s with detector := { s.detector with onRecovery := true } }
  | start (hp : s.pass = .stopped) : Transition s .start
      { s with detector := { s.detector with running := true }, pass := .sleeping }
  | stop : Transition s .stop { s with detector := { s.detector with running := false } }
  | check (now : τ) (order : List String) (hp : s.pass = .sleeping)
      (hcover : Covers order (s.detector.knownAlive ∪ s.detector.getAliveNodes A now)) :
    Transition s (.check now order) (s.announceFailed (s.detector.getAliveNodes A now) order
      (order.filter (· ∈ s.detector.knownAlive \ s.detector.getAliveNodes A now)))
  | failing (order : List String) (currentAlive : Finset String) (pending : List String)
      (hp : s.pass = .failing currentAlive pending) (hcover : Covers order currentAlive) :
    Transition s (.resume order) (s.announceFailed currentAlive order pending)
  | recovering (order : List String) (currentAlive : Finset String) (pending : List String)
      (hp : s.pass = .recovering currentAlive pending) :
    Transition s (.resume order) (s.announceRecovered currentAlive pending)

theorem step_cases {s t : Watch δ} {c : Call τ} (hs : s.step A c = some t) :
    Transition A s c t := by
  cases c with
  | addNode n =>
    cases hs
    exact .addNode n
  | removeNode n =>
    cases hs
    exact .removeNode n
  | recordHeartbeat n now =>
    cases hs
    exact .recordHeartbeat n now
  | onFailure =>
    cases hs
    exact .onFailure
  | onRecovery =>
    cases hs
    exact .onRecovery
  | start =>
    cases hp : s.pass <;> simp only [step, hp, reduceCtorEq, Option.some.injEq] at hs
    subst hs
    exact .start hp
  | stop =>
    cases hs
    exact .stop
  | check now order =>
    cases hp : s.pass <;> simp only [step, hp, reduceCtorEq] at hs
    split at hs
    · rename_i hcover
      cases hs
      exact .check now order hp hcover
    · cases hs
  | resume order =>
    cases hp : s.pass <;> simp only [step, hp, reduceCtorEq] at hs
    · split at hs
      · rename_i hcover
        cases hs
        exact .failing order _ _ hp hcover
      · cases hs
    · cases hs
      exact .recovering order _ _ hp

end Watch

def watch {τ δ : Type} (A : Accrual τ δ) : System (Watch δ) (Call τ) where
  init := {}
  step := Watch.step A

def noticesOf (log : List Entry) (n : String) : List Notice :=
  (log.filter fun e => e.node = n).map Entry.notice

/-- No notice follows itself, removals apart. -/
def Alternate (notices : List Notice) : Prop :=
  notices.IsChain fun later earlier => later = earlier → later = .removed

namespace Watch
variable {τ δ : Type} {A : Accrual τ δ} {s t : Watch δ} {C : Finset String} {order : List String}
variable {d : FailureDetector δ} {pending : List String} {log : List Entry} {n : String}

theorem noticesOf_note (notice : Notice) (n m : String) : noticesOf (s.note notice n).log m =
    if n = m then notice :: noticesOf s.log m else noticesOf s.log m := by
  by_cases h : n = m <;> simp [noticesOf, note, h]

/-- The nodes whose recovery, so far as announced, still stands. -/
def standing (s : Watch δ) : Finset String := match s.pass with
  | .stopped | .sleeping => s.detector.knownAlive
  | .failing C pending => pending.toFinset ∪ (C ∩ s.detector.knownAlive)
  | .recovering C pending => C \ pending.toFinset

theorem mem_standing_failing : n ∈ standing ⟨d, .failing C pending, log⟩ ↔
    n ∈ pending ∨ n ∈ C ∧ n ∈ d.knownAlive := by
  rw [standing, Finset.mem_union, List.mem_toFinset, Finset.mem_inter]

theorem mem_standing_recovering : n ∈ standing ⟨d, .recovering C pending, log⟩ ↔
    n ∈ C ∧ n ∉ pending := by
  rw [standing, Finset.mem_sdiff, List.mem_toFinset]

/-- What a suspended pass has still to announce: each node once, and none of the alive ones as
failed. -/
def Ordered : Pass → Prop
  | .failing C pending => pending.Nodup ∧ ∀ n ∈ pending, n ∉ C
  | .recovering C pending => pending.Nodup ∧ ∀ n ∈ pending, n ∈ C
  | _ => True

/-- The latest notice about a node agrees with what stands of it. -/
structure Consistent (s : Watch δ) : Prop where
  ordered : Ordered s.pass
  standing : ∀ n ∈ s.standing, (noticesOf s.log n).head? ≠ some .failed
  fallen : ∀ n ∉ s.standing, (noticesOf s.log n).head? ≠ some .recovered
  alternate : ∀ n, Alternate (noticesOf s.log n)

/-- What is said next agrees with what stands if it is no repetition and changes only its own
node. -/
theorem Consistent.note (h : Consistent s) {notice : Notice} {n : String}
    (hlog : t.log = (s.note notice n).log) (hord : Ordered t.pass)
    (hother : ∀ m ≠ n, m ∈ t.standing ↔ m ∈ s.standing)
    (hnew : notice = .removed ∨ (noticesOf s.log n).head? ≠ some notice)
    (hin : n ∈ t.standing → notice ≠ .failed) (hout : n ∉ t.standing → notice ≠ .recovered) :
    Consistent t where
  ordered := hord
  standing m hm := by
    rw [hlog, noticesOf_note]
    by_cases he : n = m
    · subst he
      simpa using hin hm
    · rw [if_neg he]
      exact h.standing m ((hother m (Ne.symm he)).mp hm)
  fallen m hm := by
    rw [hlog, noticesOf_note]
    by_cases he : n = m
    · subst he
      simpa using hout hm
    · rw [if_neg he]
      exact h.fallen m fun hs => hm ((hother m (Ne.symm he)).mpr hs)
  alternate m := by
    rw [hlog, noticesOf_note]
    by_cases he : n = m
    · subst he
      rw [if_pos rfl]
      refine List.isChain_cons.mpr ⟨fun b hb hbn => ?_, h.alternate n⟩
      exact hnew.resolve_right fun hne => hne (hbn ▸ hb)
    · rw [if_neg he]
      exact h.alternate m

theorem Consistent.congr (h : Consistent s) (hlog : t.log = s.log) (hord : Ordered t.pass)
    (hstand : t.standing = s.standing) : Consistent t where
  ordered := hord
  standing := by rw [hlog, hstand]; exact h.standing
  fallen := by rw [hlog, hstand]; exact h.fallen
  alternate := by rw [hlog]; exact h.alternate

theorem Consistent.announceRecovered
    (h : Consistent { s with pass := .recovering C pending }) :
    Consistent (s.announceRecovered C pending) := by
  induction pending generalizing s with
  | nil =>
    have hstand : (s.finish C).standing = C := by
      cases hrun : s.detector.running <;> simp [Watch.standing, finish, hrun]
    refine h.congr rfl ?_ (hstand.trans (Finset.sdiff_empty).symm)
    cases hrun : s.detector.running <;> simp [Watch.announceRecovered, finish, hrun, Ordered]
  | cons n pending ih =>
    obtain ⟨hn, hnodup⟩ := List.nodup_cons.mp h.ordered.1
    have hnC : n ∈ C := h.ordered.2 n List.mem_cons_self
    have hnext : Consistent { s.note .recovered n with pass := .recovering C pending } := by
      refine h.note rfl ⟨hnodup, fun m hm => h.ordered.2 m (List.mem_cons_of_mem n hm)⟩ ?_ ?_ ?_ ?_
      · intro m hm
        rw [mem_standing_recovering, mem_standing_recovering, List.mem_cons, or_iff_right hm]
      · exact .inr (h.fallen n fun hs => (mem_standing_recovering.mp hs).2 List.mem_cons_self)
      · exact fun _ => by decide
      · exact fun hout => absurd (mem_standing_recovering.mpr ⟨hnC, hn⟩) hout
    rw [Watch.announceRecovered]
    split
    · exact hnext
    · exact ih hnext

theorem Consistent.announceFailed (horder : order.Nodup)
    (hcover : C ⊆ order.toFinset)
    (h : Consistent { s with pass := .failing C pending }) :
    Consistent (s.announceFailed C order pending) := by
  induction pending generalizing s with
  | nil =>
    have hmem (n : String) : n ∈ order.filter (· ∈ C \ s.detector.knownAlive) ↔
        n ∈ C ∧ n ∉ s.detector.knownAlive :=
      (mem_filter_of_subset (Finset.sdiff_subset.trans hcover)).trans Finset.mem_sdiff
    refine Consistent.announceRecovered
      (h.congr rfl ⟨horder.filter _, fun n hn => ((hmem n).mp hn).1⟩ (Finset.ext fun n => ?_))
    rw [mem_standing_recovering, mem_standing_failing, hmem, or_iff_right List.not_mem_nil]
    refine and_congr_right fun hC => ?_
    rw [not_and, not_not]
    exact ⟨fun h => h hC, fun h _ => h⟩
  | cons n pending ih =>
    obtain ⟨hn, hnodup⟩ := List.nodup_cons.mp h.ordered.1
    have hnC : n ∉ C := h.ordered.2 n List.mem_cons_self
    have hnext : Consistent { s.note .failed n with pass := .failing C pending } := by
      refine h.note rfl ⟨hnodup, fun m hm => h.ordered.2 m (List.mem_cons_of_mem n hm)⟩ ?_ ?_ ?_ ?_
      · intro m hm
        rw [mem_standing_failing, mem_standing_failing, List.mem_cons, or_iff_right hm]
        rfl
      · exact .inr (h.standing n (mem_standing_failing.mpr (.inl List.mem_cons_self)))
      · exact fun hin => absurd (mem_standing_failing.mp hin) (by simp [hnC, hn])
      · exact fun _ => by decide
    rw [Watch.announceFailed]
    split
    · exact hnext
    · exact ih hnext

theorem Consistent.withDetector (h : Consistent s)
    (hd : d.knownAlive = s.detector.knownAlive) : Consistent { s with detector := d } :=
  h.congr rfl h.ordered (by rw [Watch.standing, Watch.standing, hd])

theorem Consistent.removeNode (h : Consistent s) : Consistent
    { s.note .removed n with detector := s.detector.removeNode n } := by
  refine h.note rfl h.ordered (fun m hm => ?_) (.inl rfl) (fun _ => by decide) (fun _ => by decide)
  unfold Watch.standing
  cases hp : s.pass <;> simp [Watch.note, hp, FailureDetector.removeNode, hm]

theorem knownAlive_addNode (d : FailureDetector δ) (n : String) :
    (d.addNode A n).knownAlive = d.knownAlive := by
  unfold FailureDetector.addNode
  split <;> rfl

theorem knownAlive_recordHeartbeat {τ : Type} {A : Accrual τ δ} (d : FailureDetector δ) (n : String)
    (now : τ) : (d.recordHeartbeat A n now).knownAlive = d.knownAlive := by
  rw [← knownAlive_addNode (A := A) d n, FailureDetector.recordHeartbeat]
  split <;> rfl

theorem Consistent.check {now : τ} (h : Consistent s) (hp : s.pass = .sleeping)
    (hcover : Covers order (s.detector.knownAlive ∪ s.detector.getAliveNodes A now)) :
    Consistent (s.announceFailed (s.detector.getAliveNodes A now) order
      (order.filter (· ∈ s.detector.knownAlive \ s.detector.getAliveNodes A now))) := by
  obtain ⟨hnodup, hcover⟩ := hcover
  have hmem (n : String) :
      n ∈ order.filter (· ∈ s.detector.knownAlive \ s.detector.getAliveNodes A now) ↔
        n ∈ s.detector.knownAlive ∧ n ∉ s.detector.getAliveNodes A now :=
    (mem_filter_of_subset (Finset.sdiff_subset.trans (Finset.union_subset_left hcover))).trans
      Finset.mem_sdiff
  have hstand : s.standing = s.detector.knownAlive := by rw [Watch.standing, hp]
  refine Consistent.announceFailed hnodup (Finset.union_subset_right hcover) (h.congr rfl
    ⟨hnodup.filter _, fun n hn => ((hmem n).mp hn).2⟩ (Finset.ext fun n => ?_))
  rw [mem_standing_failing, hmem, hstand]
  constructor
  · rintro (hn | hn)
    · exact hn.1
    · exact hn.2
  · intro hn
    by_cases halive : n ∈ s.detector.getAliveNodes A now
    · exact .inr ⟨halive, hn⟩
    · exact .inl ⟨hn, halive⟩

theorem Consistent.step {c : Call τ} (h : Consistent s) (hs : s.step A c = some t) :
    Consistent t := by
  cases step_cases A hs with
  | addNode n => exact h.withDetector (knownAlive_addNode _ _)
  | removeNode n => exact h.removeNode
  | recordHeartbeat n now => exact h.withDetector (knownAlive_recordHeartbeat _ _ _)
  | onFailure | onRecovery | stop => exact h.withDetector rfl
  | start hp => exact h.congr rfl trivial (by simp [Watch.standing, hp])
  | check now order hp hcover => exact h.check hp hcover
  | failing order C pending hp hcover =>
    refine Consistent.announceFailed hcover.1 hcover.2 (h.congr rfl (hp ▸ h.ordered) ?_)
    simp [Watch.standing, hp]
  | recovering order C pending hp =>
    refine Consistent.announceRecovered (h.congr rfl (hp ▸ h.ordered) ?_)
    simp [Watch.standing, hp]

/-- The nodes that a suspended pass has taken as alive or has still to announce. -/
def snapshot (s : Watch δ) : Finset String := match s.pass with
  | .failing C pending | .recovering C pending => C ∪ pending.toFinset
  | _ => ∅

theorem mem_snapshot_failing : n ∈ snapshot ⟨d, .failing C pending, log⟩ ↔ n ∈ C ∨ n ∈ pending := by
  rw [snapshot, Finset.mem_union, List.mem_toFinset]

theorem mem_snapshot_recovering :
    n ∈ snapshot ⟨d, .recovering C pending, log⟩ ↔ n ∈ C ∨ n ∈ pending := by
  rw [snapshot, Finset.mem_union, List.mem_toFinset]

/-- No node is removed that the suspended pass still holds. -/
def SparesSnapshot (s : Watch δ) : Call τ → Prop
  | .removeNode n => n ∉ s.snapshot
  | _ => True

/-- What the loop knows of is monitored, and so was what it announced. -/
structure Tracked (s : Watch δ) : Prop where
  known : ∀ n ∈ s.detector.knownAlive, s.detector.Monitored n
  snapshot : ∀ n ∈ s.snapshot, s.detector.Monitored n
  log : ∀ e ∈ s.log, e.notice ≠ .removed → e.monitored = true

theorem Tracked.note (h : s.Tracked) {notice : Notice} {n : String}
    (hn : notice = .removed ∨ s.detector.Monitored n) :
    ∀ e ∈ (s.note notice n).log, e.notice ≠ .removed → e.monitored = true := by
  intro e he hne
  cases List.mem_cons.mp he with
  | inl he =>
    subst he
    exact decide_eq_true (hn.resolve_left hne)
  | inr he => exact h.log e he hne

theorem Tracked.announceRecovered
    (h : Tracked { s with pass := .recovering C pending }) :
    Tracked (s.announceRecovered C pending) := by
  induction pending generalizing s with
  | nil =>
    refine ⟨fun n hn => h.snapshot n (Finset.mem_union_left _ hn), fun n hn => ?_, h.log⟩
    cases hrun : s.detector.running <;>
      simp [Watch.snapshot, Watch.announceRecovered, finish, hrun] at hn
  | cons n pending ih =>
    have hn : s.detector.Monitored n :=
      h.snapshot n (mem_snapshot_recovering.mpr (.inr List.mem_cons_self))
    have hnext : Tracked { s.note .recovered n with pass := .recovering C pending } := by
      refine ⟨h.known, fun m hm => h.snapshot m ?_, h.note (.inr hn)⟩
      exact mem_snapshot_recovering.mpr
        ((mem_snapshot_recovering.mp hm).imp_right (List.mem_cons_of_mem n))
    rw [Watch.announceRecovered]
    split
    · exact hnext
    · exact ih hnext

theorem Tracked.announceFailed
    (h : Tracked { s with pass := .failing C pending }) :
    Tracked (s.announceFailed C order pending) := by
  induction pending generalizing s with
  | nil =>
    refine Tracked.announceRecovered ⟨h.known, fun n hn => h.snapshot n ?_, h.log⟩
    rw [mem_snapshot_failing, or_iff_left List.not_mem_nil]
    cases mem_snapshot_recovering.mp hn with
    | inl hn => exact hn
    | inr hn => exact (Finset.mem_sdiff.mp (of_decide_eq_true (List.mem_filter.mp hn).2)).1
  | cons n pending ih =>
    have hn : s.detector.Monitored n :=
      h.snapshot n (mem_snapshot_failing.mpr (.inr List.mem_cons_self))
    have hnext : Tracked { s.note .failed n with pass := .failing C pending } := by
      refine ⟨h.known, fun m hm => h.snapshot m ?_, h.note (.inr hn)⟩
      exact mem_snapshot_failing.mpr
        ((mem_snapshot_failing.mp hm).imp_right (List.mem_cons_of_mem n))
    rw [Watch.announceFailed]
    split
    · exact hnext
    · exact ih hnext

theorem Tracked.withDetector (h : s.Tracked)
    (hd : d.knownAlive = s.detector.knownAlive)
    (hm : ∀ n, s.detector.Monitored n → d.Monitored n) : Tracked { s with detector := d } :=
  ⟨fun n hn => hm n (h.known n (hd ▸ hn)), fun n hn => hm n (h.snapshot n hn), h.log⟩

theorem Tracked.step {c : Call τ} (h : s.Tracked) (hc : s.SparesSnapshot c)
    (hs : s.step A c = some t) : t.Tracked := by
  cases step_cases A hs with
  | addNode n =>
    exact h.withDetector (knownAlive_addNode _ _) fun m hm =>
      FailureDetector.monitored_addNode.mpr (.inr hm)
  | removeNode n =>
    refine ⟨fun m hm => ?_, fun m hm => ?_, h.note (.inl rfl)⟩
    · obtain ⟨hne, hm⟩ := Finset.mem_erase.mp hm
      exact FailureDetector.monitored_removeNode.mpr ⟨hne, h.known m hm⟩
    · refine FailureDetector.monitored_removeNode.mpr ⟨?_, h.snapshot m hm⟩
      rintro rfl
      exact hc hm
  | recordHeartbeat n now =>
    exact h.withDetector (knownAlive_recordHeartbeat _ _ _) fun m hm =>
      FailureDetector.monitored_recordHeartbeat.mpr (.inr hm)
  | onFailure | onRecovery | stop => exact h.withDetector rfl fun _ => id
  | start => exact ⟨h.known, List.forall_mem_nil _, h.log⟩
  | check now order =>
    refine Tracked.announceFailed ⟨h.known, fun n hn => ?_, h.log⟩
    cases mem_snapshot_failing.mp hn with
    | inl hn => exact FailureDetector.monitored_of_alive hn
    | inr hn =>
      have hfailed := of_decide_eq_true (List.mem_filter.mp hn).2
      exact h.known n (Finset.mem_sdiff.mp hfailed).1
  | failing order C pending hp =>
    refine Tracked.announceFailed ⟨h.known, fun n hn => h.snapshot n ?_, h.log⟩
    rwa [Watch.snapshot, hp]
  | recovering order C pending hp =>
    refine Tracked.announceRecovered ⟨h.known, fun n hn => h.snapshot n ?_, h.log⟩
    rwa [Watch.snapshot, hp]

end Watch

section Runs
variable {τ δ : Type} {A : Accrual τ δ} {s : Watch δ}

theorem consistent_of_reachable (h : (watch A).Reachable s) : s.Consistent :=
  h.invariant ⟨trivial, List.forall_mem_nil _, by simp [watch, noticesOf], fun _ => .nil⟩
    fun _ _ _ _ hi _ hs => hi.step hs

theorem tracked_of_reach (h : (watch A).Reach (fun s c => s.SparesSnapshot c) s) : s.Tracked :=
  h.invariant ⟨by simp [watch], by simp [watch, Watch.snapshot], List.forall_mem_nil _⟩
    fun _ _ _ _ hi hc hs => hi.step hc hs

/-- The announcements about a node alternate between its removals, in every run. Where no node
is removed that a suspended pass still holds, each is about a node that is monitored then. -/
theorem announcements_sound (A : Accrual τ δ) (calls : List (Call τ)) {s : Watch δ}
    (hr : (watch A).run (watch A).init calls = some s) :
    (∀ n, Alternate (noticesOf s.log n)) ∧
    ((watch A).Along (fun s c _ => s.SparesSnapshot c) (watch A).init calls →
      ∀ e ∈ s.log, e.notice ≠ .removed → e.monitored = true) :=
  ⟨(consistent_of_reachable (System.reachable_run hr)).alternate,
    fun hspare => (tracked_of_reach (System.Reach.init.run hspare hr)).log⟩

/-- One node, with a detector that has heard nothing. -/
def monitoring (A : Accrual τ δ) (knownAlive : Finset String) (log : List Entry) : Watch δ where
  detector :=
    { detectors := ⟨[("a", A.create)], List.nodup_singleton _⟩
      knownAlive := knownAlive
      running := true }
  pass := .sleeping
  log := log

/-- The loop is held up at the callback for the recovery of the node. -/
def announcing (A : Accrual τ δ) : Watch δ :=
  { monitoring A ∅ [⟨"a", .recovered, true⟩] with
    detector := { (monitoring A ∅ []).detector with onRecovery := true }
    pass := .recovering {"a"} [] }

theorem run_announcing (hA : ∀ now, A.isAvailable A.create now = true) (now : τ) :
    (watch A).run (watch A).init [.addNode "a", .onRecovery, .start, .check now ["a"]] =
      some (announcing A) := by
  let joined : Watch δ :=
    { monitoring A ∅ [] with detector := { (monitoring A ∅ []).detector with onRecovery := true } }
  have halive : joined.detector.getAliveNodes A now = {"a"} := by
    simp [FailureDetector.getAliveNodes, joined, monitoring, Dict.keysWhere, hA]
  have hjoin : (watch A).run (watch A).init [.addNode "a", .onRecovery, .start] = some joined := rfl
  have hsplit : [Call.addNode "a", .onRecovery, .start, .check now ["a"]] =
      [Call.addNode "a", .onRecovery, .start] ++ [Call.check now ["a"]] := rfl
  rw [hsplit, System.run_append, hjoin, Option.bind_some]
  simp only [System.run, watch, Watch.step, halive]
  rfl

theorem announcements_sound_announcing : ∃ s, (watch (phiAccrual 8)).run (watch (phiAccrual 8)).init
    ([.addNode "a", .onRecovery, .start, .check 0 ["a"]] ++
      [.addNode "b", .removeNode "b", .resume ["a"]]) = some s ∧
    s.log = [⟨"b", .removed, true⟩, ⟨"a", .recovered, true⟩] ∧
    (∀ n, Alternate (noticesOf s.log n)) ∧
    ∀ e ∈ s.log, e.notice ≠ .removed → e.monitored = true := by
  have hbefore := run_announcing (phiAccrual_create_available 8 (by norm_num)) 0
  obtain ⟨s, hs, hlog⟩ : ∃ s, (watch (phiAccrual 8)).run (announcing (phiAccrual 8))
      [.addNode "b", .removeNode "b", .resume ["a"]] = some s ∧
      s.log = [⟨"b", .removed, true⟩, ⟨"a", .recovered, true⟩] := ⟨_, rfl, rfl⟩
  have hr := System.run_append (M := watch (phiAccrual 8)) (watch (phiAccrual 8)).init
    [.addNode "a", .onRecovery, .start, .check 0 ["a"]]
    [.addNode "b", .removeNode "b", .resume ["a"]]
  rw [hbefore, Option.bind_some, hs] at hr
  have hsound := announcements_sound (phiAccrual 8) _ hr
  refine ⟨s, hr, hlog, hsound.1, hsound.2 ((System.along_append _ _ _).mpr ⟨?_, fun t ht => ?_⟩)⟩
  · exact fun _ _ => ⟨trivial, fun _ _ => ⟨trivial, fun _ _ => ⟨trivial, fun _ _ =>
      ⟨trivial, trivial⟩⟩⟩⟩
  · cases hbefore.symm.trans ht
    intro added hadd
    cases hadd
    refine ⟨trivial, fun _ _ => ⟨?_, fun _ _ => ⟨trivial, trivial⟩⟩⟩
    simp [Watch.SparesSnapshot, Watch.snapshot, announcing]

theorem check_monitoring (hA : ∀ now, A.isAvailable A.create now = true) (now : τ)
    (log : List Entry) : (watch A).run (monitoring A ∅ log) [.check now ["a"]] =
      some (monitoring A {"a"} (⟨"a", .recovered, true⟩ :: log)) := by
  have halive : (monitoring A ∅ log).detector.getAliveNodes A now = {"a"} := by
    simp [FailureDetector.getAliveNodes, monitoring, Dict.keysWhere, hA]
  simp only [System.run, watch, Watch.step, halive]
  rfl

/-- A node joins, leaves and joins again. -/
def rejoin (now now' : τ) : List (Call τ) :=
  [.addNode "a", .start, .check now ["a"], .removeNode "a", .addNode "a", .check now' ["a"]]

def rejoinLog : List Entry :=
  [⟨"a", .recovered, true⟩, ⟨"a", .removed, true⟩, ⟨"a", .recovered, true⟩]

theorem run_rejoin (hA : ∀ now, A.isAvailable A.create now = true) (now now' : τ) :
    (watch A).run (watch A).init (rejoin now now') = some (monitoring A {"a"} rejoinLog) := by
  have hjoin : (watch A).run (watch A).init [.addNode "a", .start] = some (monitoring A ∅ []) := rfl
  have hleave (log : List Entry) :
      (watch A).run (monitoring A {"a"} log) [.removeNode "a", .addNode "a"] =
        some (monitoring A ∅ (⟨"a", .removed, true⟩ :: log)) := rfl
  have hsplit : rejoin now now' = [Call.addNode "a", .start] ++ ([Call.check now ["a"]] ++
    ([Call.removeNode "a", .addNode "a"] ++ [Call.check now' ["a"]])) := rfl
  simp only [hsplit, System.run_append, hjoin, hleave, check_monitoring hA, Option.bind_some,
    rejoinLog]

theorem recovered_twice_across_removal : ¬ ∀ (calls : List (Call ℝ)) (s : Watch PhiAccrualDetector),
    (watch (phiAccrual 8)).run (watch (phiAccrual 8)).init calls = some s →
    (∀ n, ((noticesOf s.log n).filter (· ≠ .removed)).IsChain (· ≠ ·)) ∧
      ∀ e ∈ s.log, e.notice ≠ .removed → e.monitored = true := by
  intro h
  have hrun := run_rejoin (phiAccrual_create_available 8 (by norm_num)) 0 1
  have halt := (h (rejoin 0 1) _ hrun).1 "a"
  have hnotices : (noticesOf (monitoring (phiAccrual 8) {"a"} rejoinLog).log "a").filter
      (· ≠ .removed) = [.recovered, .recovered] := rfl
  rw [hnotices] at halt
  simp at halt

/-- Why the snapshot has to be spared: a node removed while its recovery is announced is put
back among the known ones, and announced as failed by the next pass. -/
theorem failed_after_removal (hA : ∀ now, A.isAvailable A.create now = true) (now now' : τ) :
    ((watch A).run (watch A).init ([.addNode "a", .onRecovery, .start, .check now ["a"]] ++
        [.removeNode "a", .resume ["a"], .check now' ["a"]])).map Watch.log =
      some [⟨"a", .failed, false⟩, ⟨"a", .removed, true⟩, ⟨"a", .recovered, true⟩] := by
  rw [System.run_append, run_announcing hA, Option.bind_some]
  rfl

end Runs

end DistSync.Detector
