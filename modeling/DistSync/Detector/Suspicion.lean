import DistSync.Detector.CheckLoop

/-! When a node is suspected. The suspicion rises and falls with a cubic in the normalised delay,
but up to seven standard deviations it stays under the threshold 8, and from eight on it is over
it. So a node that is heard in time is never announced as failed, and one that falls silent is, by
the first pass late enough. -/
namespace DistSync.Detector

section Logistic
variable {t x : ℝ}

theorem sigmoid_le {n : Nat} (ht : t ≤ -n) : Real.sigmoid t ≤ 1 / 2.5 ^ n := by
  have hexp : 2.5 ^ n ≤ Real.exp (-t) := by
    calc (2.5 : ℝ) ^ n ≤ Real.exp 1 ^ n :=
          pow_le_pow_left₀ (by norm_num) (by linarith [Real.exp_one_gt_d9]) n
      _ = Real.exp n := by rw [← Real.exp_nat_mul, mul_one]
      _ ≤ Real.exp (-t) := Real.exp_le_exp.mpr (by linarith)
  rw [Real.sigmoid_def, one_div]
  exact inv_anti₀ (by positivity) (by linarith)

theorem cubic_ge_of_le_seven (hx : x ≤ 7) : -16 ≤ cubic x := by
  by_cases hneg : x ≤ 0
  · linarith [cubic_ge_of_nonpos hneg]
  · have hsq : x ^ 2 ≤ 49 := by nlinarith
    unfold cubic
    nlinarith

theorem cubic_le_of_eight_le (hx : 8 ≤ x) : cubic x ≤ -23 := by
  have hsq : 64 ≤ x ^ 2 := by nlinarith
  unfold cubic
  nlinarith

end Logistic

namespace PhiAccrualDetector
variable {d : PhiAccrualDetector} {p last elapsed now : ℝ}

theorem suspicion_ge (h0 : 0 < p) (hp : p ≤ 1e-8) : 8 ≤ suspicion p := by
  unfold suspicion
  split
  · norm_num
  · have hlog : Real.logb 10 1e-8 = -8 := by
      rw [show (1e-8 : ℝ) = (10 ^ 8)⁻¹ by norm_num, Real.logb_inv, Real.logb_pow,
        Real.logb_self_eq_one (by norm_num)]
      norm_num
    have hle := Real.logb_le_logb_of_le (by norm_num : (1 : ℝ) < 10) h0 hp
    linarith

/-- The settings that the failure detector gives its detectors, and a detector that has heard
something has an interval. -/
structure Standard (d : PhiAccrualDetector) : Prop where
  threshold : d.threshold = 8
  windowSize : d.windowSize = 1000
  minStdDeviationMs : d.minStdDeviationMs = 500
  acceptableHeartbeatPauseMs : d.acceptableHeartbeatPauseMs = 0
  estimate : d.firstHeartbeatEstimateMs = 1000
  heard : d.lastHeartbeat ≠ none → d.intervals ≠ []

theorem standard_create : (withThreshold 8).Standard :=
  ⟨rfl, rfl, rfl, rfl, rfl, fun h => (h rfl).elim⟩

theorem Standard.heartbeat (h : d.Standard) (now : ℝ) : (d.heartbeat now).Standard where
  threshold := h.threshold
  windowSize := h.windowSize
  minStdDeviationMs := h.minStdDeviationMs
  acceptableHeartbeatPauseMs := h.acceptableHeartbeatPauseMs
  estimate := h.estimate
  heard _ := by
    rw [PhiAccrualDetector.heartbeat, h.windowSize, pushBounded, ← List.length_pos_iff]
    simp only [List.length_drop, List.length_append, List.length_singleton]
    omega

theorem Standard.stdDev_ge (h : d.Standard) : 500 ≤ d.stdDev :=
  h.minStdDeviationMs ▸ le_max_right _ _

theorem Standard.available (h : d.Standard) (hlast : d.lastHeartbeat = some last)
    (hsoon : now ≤ last + d.mean + 7 * d.stdDev) : d.isAvailable now = true := by
  have hpos : 0 < d.stdDev := by linarith [h.stdDev_ge]
  have hdelay : d.delay (now - last) ≤ 7 := by
    rw [delay, diff, h.acceptableHeartbeatPauseMs, div_le_iff₀ hpos]
    linarith
  have hge := sigmoid_ge (n := 16) (cubic_ge_of_le_seven hdelay)
  have hphi := phi_eq hlast (h.heard (hlast ▸ Option.some_ne_none _)) (now - last)
  rw [add_sub_cancel] at hphi
  rw [isAvailable, h.threshold, hphi]
  exact decide_eq_true (suspicion_lt (lt_of_lt_of_le (by norm_num) hge))

theorem Standard.not_available (h : d.Standard) (hlast : d.lastHeartbeat = some last)
    (hlate : last + d.mean + 8 * d.stdDev ≤ now) : d.isAvailable now = false := by
  have hpos : 0 < d.stdDev := by linarith [h.stdDev_ge]
  have hdelay : 8 ≤ d.delay (now - last) := by
    rw [delay, diff, h.acceptableHeartbeatPauseMs, le_div_iff₀ hpos]
    linarith
  have hle := sigmoid_le (n := 23) (cubic_le_of_eight_le hdelay)
  have hphi := phi_eq hlast (h.heard (hlast ▸ Option.some_ne_none _)) (now - last)
  rw [add_sub_cancel] at hphi
  rw [isAvailable, h.threshold, hphi]
  refine decide_eq_false (not_lt.mpr (suspicion_ge (Real.sigmoid_pos _) (hle.trans ?_)))
  norm_num

theorem Standard.available_of_none (h : d.Standard) (hlast : d.lastHeartbeat = none) :
    d.isAvailable now = true := by
  rw [isAvailable, phi, hlast, h.threshold]
  exact decide_eq_true (by norm_num)

end PhiAccrualDetector

namespace Watch
variable {τ δ : Type} {A : Accrual τ δ} {s t : Watch δ} {C : Finset String} {n : String}
  {order pending : List String}

theorem announceRecovered_detectors (s : Watch δ) (C : Finset String) (pending : List String) :
    (s.announceRecovered C pending).detector.detectors = s.detector.detectors := by
  induction pending generalizing s with
  | nil => rfl
  | cons m pending ih =>
    rw [announceRecovered]
    split
    · rfl
    · exact ih _

theorem announceFailed_detectors (s : Watch δ) (C : Finset String) (order pending : List String) :
    (s.announceFailed C order pending).detector.detectors = s.detector.detectors := by
  induction pending generalizing s with
  | nil => exact announceRecovered_detectors ..
  | cons m pending ih =>
    rw [announceFailed]
    split
    · rfl
    · exact ih _

theorem Transition.get?_detectors {c : Call τ} (h : Transition A s c t) (n : String) :
    t.detector.detectors.get? n = match c with
      | .addNode m =>
        if m = n then some ((s.detector.detectors.get? n).getD A.create)
        else s.detector.detectors.get? n
      | .removeNode m => if n = m then none else s.detector.detectors.get? n
      | .recordHeartbeat m now =>
        if m = n then some (A.heartbeat ((s.detector.detectors.get? n).getD A.create) now)
        else s.detector.detectors.get? n
      | _ => s.detector.detectors.get? n := by
  cases h with
  | addNode m =>
    simp only [FailureDetector.get?_addNode]
    split
    · rename_i he
      rw [he]
    · rfl
  | removeNode m => exact Dict.get?_erase ..
  | recordHeartbeat m now =>
    simp only [FailureDetector.get?_recordHeartbeat]
    split
    · rename_i he
      rw [he]
    · rfl
  | onFailure | onRecovery | start | stop => rfl
  | check | failing => simp only [announceFailed_detectors]
  | recovering => simp only [announceRecovered_detectors]

theorem Transition.forall_detectors {P : δ → Prop} {c : Call τ} (h : Transition A s c t)
    (hcreate : P A.create)
    (hbeat : ∀ now, c = .recordHeartbeat n now →
      P (A.heartbeat ((s.detector.detectors.get? n).getD A.create) now))
    (hs : ∀ detector ∈ s.detector.detectors.get? n, P detector) :
    ∀ detector ∈ t.detector.detectors.get? n, P detector := by
  have hget : P ((s.detector.detectors.get? n).getD A.create) := by
    cases hn : s.detector.detectors.get? n with
    | none => exact hcreate
    | some detector => exact hs detector hn
  intro detector hd
  rw [h.get?_detectors n] at hd
  cases c with
  | addNode m =>
    simp only at hd
    split at hd
    · cases hd
      exact hget
    · exact hs detector hd
  | removeNode m =>
    simp only at hd
    split at hd
    · cases hd
    · exact hs detector hd
  | recordHeartbeat m now =>
    simp only at hd
    split at hd
    · rename_i he
      cases hd
      exact hbeat now (he ▸ rfl)
    · exact hs detector hd
  | onFailure | onRecovery | start | stop | check | resume => exact hs detector hd

theorem standard_of_reachable {s : Watch PhiAccrualDetector}
    (h : (watch (phiAccrual 8)).Reachable s) (n : String) :
    ∀ detector ∈ s.detector.detectors.get? n, detector.Standard := by
  refine h.invariant (I := fun s => ∀ detector ∈ s.detector.detectors.get? n, detector.Standard)
    (by simp [watch]) fun s c t _ hs _ ht => ?_
  refine (step_cases _ ht).forall_detectors PhiAccrualDetector.standard_create (fun now _ => ?_) hs
  refine PhiAccrualDetector.Standard.heartbeat ?_ now
  cases hn : s.detector.detectors.get? n with
  | none => exact PhiAccrualDetector.standard_create
  | some detector => exact hs detector hn

/-- The nodes that the loop takes for alive, or will once it has announced what is pending. -/
def believed (s : Watch δ) : Finset String := match s.pass with
  | .failing C _ | .recovering C _ => C ∪ s.detector.knownAlive
  | _ => s.detector.knownAlive

/-- The node was never announced as failed, nor is it about to be. -/
structure Upheld (n : String) (s : Watch δ) : Prop where
  believed : n ∈ s.believed → s.detector.Monitored n
  pending : ∀ C pending, s.pass = .failing C pending → n ∉ pending
  log : ∀ e ∈ s.log, e.node = n → e.notice ≠ .failed

theorem Upheld.announceRecovered (h : Upheld n { s with pass := .recovering C pending }) :
    Upheld n (s.announceRecovered C pending) := by
  induction pending generalizing s with
  | nil =>
    refine ⟨fun hn => h.believed (Finset.mem_union_left _ ?_), fun C' pending' hp => ?_, h.log⟩
    · cases hrun : s.detector.running <;>
        simpa [Watch.believed, Watch.announceRecovered, finish, hrun] using hn
    · cases hrun : s.detector.running <;> simp [Watch.announceRecovered, finish, hrun] at hp
  | cons m pending ih =>
    have hnext : Upheld n { s.note .recovered m with pass := .recovering C pending } := by
      refine ⟨h.believed, fun C' pending' hp => ?_, fun e he hn => ?_⟩
      · cases hp
      · cases List.mem_cons.mp he with
        | inl he => exact he ▸ (by decide : Notice.recovered ≠ .failed)
        | inr he => exact h.log e he hn
    rw [Watch.announceRecovered]
    split
    · exact hnext
    · exact ih hnext

theorem Upheld.announceFailed (h : Upheld n { s with pass := .failing C pending }) :
    Upheld n (s.announceFailed C order pending) := by
  induction pending generalizing s with
  | nil =>
    refine Upheld.announceRecovered ⟨h.believed, fun C' pending' hp => ?_, h.log⟩
    cases hp
  | cons m pending ih =>
    obtain ⟨hm, hn⟩ := not_or.mp (mt List.mem_cons.mpr (h.pending C _ rfl))
    have hnext : Upheld n { s.note .failed m with pass := .failing C pending } := by
      refine ⟨h.believed, fun C' pending' hp => ?_, fun e he hen => ?_⟩
      · cases hp
        exact hn
      · cases List.mem_cons.mp he with
        | inl he => exact absurd (he ▸ hen).symm hm
        | inr he => exact h.log e he hen
    rw [Watch.announceFailed]
    split
    · exact hnext
    · exact ih hnext

theorem Upheld.step {c : Call τ} (h : Upheld n s) (hkeep : c ≠ .removeNode n)
    (halive : ∀ now order, c = .check now order → s.detector.Monitored n →
      n ∈ s.detector.getAliveNodes A now) (ht : Transition A s c t) : Upheld n t := by
  have hdetector (d : FailureDetector δ) (hknown : d.knownAlive = s.detector.knownAlive)
      (hmon : s.detector.Monitored n → d.Monitored n) : Upheld n { s with detector := d } := by
    refine ⟨fun hn => hmon (h.believed ?_), h.pending, h.log⟩
    rwa [Watch.believed, hknown] at hn
  cases ht with
  | addNode m =>
    exact hdetector _ (knownAlive_addNode _ _) fun hn =>
      FailureDetector.monitored_addNode.mpr (.inr hn)
  | removeNode m =>
    have hne : n ≠ m := fun he => hkeep (he ▸ rfl)
    refine ⟨fun hn => FailureDetector.monitored_removeNode.mpr ⟨hne, h.believed ?_⟩,
      h.pending, fun e he hen => ?_⟩
    · cases hp : s.pass <;>
        simp_all [Watch.believed, Watch.note, FailureDetector.removeNode]
    · cases List.mem_cons.mp he with
      | inl he => exact he ▸ (by decide : Notice.removed ≠ .failed)
      | inr he => exact h.log e he hen
  | recordHeartbeat m now =>
    exact hdetector _ (knownAlive_recordHeartbeat _ _ _) fun hn =>
      FailureDetector.monitored_recordHeartbeat.mpr (.inr hn)
  | onFailure | onRecovery | stop => exact hdetector _ rfl id
  | start hp =>
    refine ⟨fun hn => h.believed ?_, fun C pending hf => ?_, h.log⟩
    · rwa [Watch.believed, hp]
    · cases hf
  | check now order hp hcover =>
    have hknown : n ∈ s.detector.knownAlive → n ∈ s.detector.getAliveNodes A now := fun hn =>
      halive now order rfl (h.believed (by rwa [Watch.believed, hp]))
    refine Upheld.announceFailed ⟨fun hn => ?_, fun C pending hf hn => ?_, h.log⟩
    · cases Finset.mem_union.mp hn with
      | inl hn => exact FailureDetector.monitored_of_alive hn
      | inr hn => exact FailureDetector.monitored_of_alive (hknown hn)
    · cases hf
      have hfailed := of_decide_eq_true (List.mem_filter.mp hn).2
      exact (Finset.mem_sdiff.mp hfailed).2 (hknown (Finset.mem_sdiff.mp hfailed).1)
  | failing order C pending hp hcover =>
    refine Upheld.announceFailed ⟨fun hn => h.believed ?_, fun C pending hf => ?_, h.log⟩
    · rwa [Watch.believed, hp]
    · cases hf
      exact h.pending C pending hp
  | recovering order C pending hp =>
    refine Upheld.announceRecovered ⟨fun hn => h.believed ?_, fun C pending hf => ?_, h.log⟩
    · rwa [Watch.believed, hp]
    · cases hf

theorem mem_getAliveNodes {d : FailureDetector δ} {now : τ} : n ∈ d.getAliveNodes A now ↔
    ∃ detector ∈ d.detectors.get? n, A.isAvailable detector now = true :=
  List.mem_toFinset.trans Dict.mem_keysWhere

/-- When a heartbeat of the node arrived last. -/
def lastHeard (s : Watch PhiAccrualDetector) (n : String) : Option ℝ :=
  (s.detector.detectors.get? n).bind PhiAccrualDetector.lastHeartbeat

/-- The node is not removed, its heartbeats come in order, and no pass begins more than 3.5 seconds
after the last. -/
def Prompt (n : String) (s : Watch PhiAccrualDetector) : Call ℝ → Prop
  | .removeNode m => m ≠ n
  | .recordHeartbeat m now => m = n → ∀ last ∈ s.lastHeard n, last ≤ now
  | .check now _ => ∀ last ∈ s.lastHeard n, now ≤ last + 3500
  | _ => True

theorem prompt_intervals {s : Watch PhiAccrualDetector}
    (h : (watch (phiAccrual 8)).Reach (fun s c => s.Prompt n c) s) :
    ∀ detector ∈ s.detector.detectors.get? n, ∀ x ∈ detector.intervals, 0 ≤ x := by
  refine h.invariant (I := fun s => ∀ detector ∈ s.detector.detectors.get? n,
    ∀ x ∈ detector.intervals, 0 ≤ x) (by simp [watch]) fun s c t hr hs hc ht => ?_
  refine (step_cases _ ht).forall_detectors (by simp [phiAccrual, PhiAccrualDetector.withThreshold])
    (fun now he x hx => ?_) hs
  subst he
  have htimed : ((s.detector.detectors.get? n).getD (phiAccrual 8).create).Timed now := by
    cases hn : s.detector.detectors.get? n with
    | none =>
      simp only [phiAccrual, PhiAccrualDetector.withThreshold, Option.getD_none]
      exact ⟨by simp, by simp, by norm_num⟩
    | some detector =>
      have hestimate := (standard_of_reachable hr.reachable n detector hn).estimate
      refine ⟨hs detector hn, fun last hlast => hc rfl last ?_, ?_⟩
      · rwa [lastHeard, hn]
      · rw [Option.getD_some, hestimate]
        norm_num
  exact htimed.heartbeat.interval x hx

/-- One node, of which one heartbeat was heard at time 0. -/
noncomputable def following (knownAlive : Finset String) (log : List Entry) :
    Watch PhiAccrualDetector where
  detector :=
    { detectors := ⟨[("a", PhiAccrualDetector.heardOnce)], List.nodup_singleton _⟩
      knownAlive := knownAlive
      running := true }
  pass := .sleeping
  log := log

theorem run_following : (watch (phiAccrual 8)).run (watch (phiAccrual 8)).init
    [.recordHeartbeat "a" 0, .start] = some (following ∅ []) := rfl

theorem standard_heardOnce : PhiAccrualDetector.heardOnce.Standard :=
  PhiAccrualDetector.standard_create.heartbeat 0

theorem mean_heardOnce : PhiAccrualDetector.heardOnce.mean = 1000 := by
  rw [PhiAccrualDetector.mean, PhiAccrualDetector.heardOnce_intervals]
  norm_num

theorem check_heard : (watch (phiAccrual 8)).step (following ∅ []) (.check 3000 ["a"]) =
    some (following {"a"} [⟨"a", .recovered, true⟩]) := by
  have havailable : PhiAccrualDetector.heardOnce.isAvailable 3000 = true := by
    refine standard_heardOnce.available rfl ?_
    rw [mean_heardOnce, PhiAccrualDetector.heardOnce_stdDev]
    norm_num
  have halive : (following ∅ []).detector.getAliveNodes (phiAccrual 8) 3000 = {"a"} := by
    simp [FailureDetector.getAliveNodes, following, Dict.keysWhere, phiAccrual, havailable]
  simp only [watch, Watch.step, halive]
  rfl

theorem check_silent (log : List Entry) :
    (watch (phiAccrual 8)).step (following {"a"} log) (.check 5000 ["a"]) =
      some (following ∅ (⟨"a", .failed, true⟩ :: log)) := by
  have havailable : PhiAccrualDetector.heardOnce.isAvailable 5000 = false := by
    refine standard_heardOnce.not_available rfl ?_
    rw [mean_heardOnce, PhiAccrualDetector.heardOnce_stdDev]
    norm_num
  have halive : (following {"a"} log).detector.getAliveNodes (phiAccrual 8) 5000 = ∅ := by
    simp [FailureDetector.getAliveNodes, following, Dict.keysWhere, phiAccrual, havailable]
  simp only [watch, Watch.step, halive]
  rfl

/-- A node that is heard in time is never announced as failed. -/
theorem prompt_never_failed {s : Watch PhiAccrualDetector}
    (h : (watch (phiAccrual 8)).Reach (fun s c => s.Prompt n c) s) :
    ∀ e ∈ s.log, e.node = n → e.notice ≠ .failed := by
  have hempty : Upheld n (watch (phiAccrual 8)).init :=
    ⟨by simp [watch, believed], by simp [watch], by simp [watch]⟩
  refine (h.invariant hempty fun s c t hr hs hc ht => hs.step (fun he => ?_)
    (fun now order he hmon => ?_) (step_cases _ ht)).log
  · subst he
    exact hc rfl
  · subst he
    obtain ⟨detector, hd⟩ := Option.isSome_iff_exists.mp hmon
    have hstd := standard_of_reachable hr.reachable n detector hd
    refine mem_getAliveNodes.mpr ⟨detector, hd, ?_⟩
    cases hlast : detector.lastHeartbeat with
    | none => exact hstd.available_of_none hlast
    | some last =>
      refine hstd.available hlast ?_
      have hsoon : now ≤ last + 3500 := hc last (by simp [lastHeard, hd, hlast])
      have hmean : 0 ≤ detector.mean :=
        div_nonneg (List.sum_nonneg (prompt_intervals hr detector hd)) (Nat.cast_nonneg _)
      linarith [hstd.stdDev_ge]

theorem prompt_never_failed_heardOnce :
    (watch (phiAccrual 8)).run (watch (phiAccrual 8)).init
        [.recordHeartbeat "a" 0, .start, .check 3000 ["a"]] =
      some (following {"a"} [⟨"a", .recovered, true⟩]) ∧
    ∀ e ∈ (following {"a"} [⟨"a", .recovered, true⟩]).log,
      e.node = "a" → e.notice ≠ .failed := by
  have hsplit : [Call.recordHeartbeat "a" (0 : ℝ), .start, .check 3000 ["a"]] =
      [.recordHeartbeat "a" 0, .start] ++ [.check 3000 ["a"]] := rfl
  have hfirst : Prompt "a" (watch (phiAccrual 8)).init (.recordHeartbeat "a" 0) :=
    fun _ last hlast => by cases hlast
  have hheard : (watch (phiAccrual 8)).Reach (fun s c => s.Prompt "a" c) (following ∅ []) := by
    refine System.Reach.init.run ?_ run_following
    exact fun _ _ => ⟨hfirst, fun _ _ => ⟨trivial, trivial⟩⟩
  have hcheck : Prompt "a" (following ∅ []) (.check 3000 ["a"]) := by
    intro last hlast
    cases hlast
    norm_num
  refine ⟨?_, prompt_never_failed (.step hheard hcheck check_heard)⟩
  rw [hsplit, System.run_append, run_following, Option.bind_some]
  exact (Option.bind_fun_some _).trans check_heard

/-- The nodes that the loop knows as alive once it is through with the pass. -/
def prospect (s : Watch δ) : Finset String := match s.pass with
  | .failing C _ | .recovering C _ => C
  | _ => s.detector.knownAlive

def Announced (n : String) (s : Watch δ) : Prop :=
  (noticesOf s.log n).head? = some .recovered ∨ (noticesOf s.log n).head? = some .failed

theorem Announced.note (h : s.Announced n) {notice : Notice} (m : String)
    (hnotice : notice = .removed → m ≠ n) : (s.note notice m).Announced n := by
  unfold Announced
  rw [noticesOf_note]
  by_cases hm : m = n
  · rw [if_pos hm]
    cases notice with
    | failed => exact .inr rfl
    | recovered => exact .inl rfl
    | removed => exact absurd hm (hnotice rfl)
  · rwa [if_neg hm]

theorem announceRecovered_prospect (s : Watch δ) (C : Finset String) (pending : List String) :
    (s.announceRecovered C pending).prospect = C := by
  induction pending generalizing s with
  | nil => cases hrun : s.detector.running <;> simp [prospect, announceRecovered, finish, hrun]
  | cons m pending ih =>
    rw [announceRecovered]
    split
    · rfl
    · exact ih _

theorem announceFailed_prospect (s : Watch δ) (C : Finset String) (order pending : List String) :
    (s.announceFailed C order pending).prospect = C := by
  induction pending generalizing s with
  | nil => exact announceRecovered_prospect ..
  | cons m pending ih =>
    rw [announceFailed]
    split
    · rfl
    · exact ih _

/-- Only a pass that finds a node alive makes the loop take it for alive. -/
theorem Transition.prospect_subset {c : Call τ} (h : Transition A s c t) : t.prospect ⊆
    match c with
    | .check now _ => s.detector.getAliveNodes A now
    | _ => s.prospect := by
  have hdetector (d : FailureDetector δ) (hknown : d.knownAlive ⊆ s.detector.knownAlive)
      (log : List Entry) : prospect ⟨d, s.pass, log⟩ ⊆ s.prospect := by
    unfold prospect
    split <;> simp_all
  cases h with
  | addNode m => exact hdetector _ (knownAlive_addNode _ _).subset _
  | removeNode m => exact hdetector _ (Finset.erase_subset ..) _
  | recordHeartbeat m now => exact hdetector _ (knownAlive_recordHeartbeat _ _ _).subset _
  | onFailure | onRecovery | stop => exact hdetector _ subset_rfl _
  | start hp =>
    simp only [prospect, hp]
    exact subset_rfl
  | check now order hp hcover => exact (announceFailed_prospect ..).subset
  | failing order C pending hp hcover =>
    simp only [prospect.eq_def s, hp]
    exact (announceFailed_prospect ..).subset
  | recovering order C pending hp =>
    simp only [prospect.eq_def s, hp]
    exact (announceRecovered_prospect ..).subset

theorem Announced.announceRecovered (h : s.Announced n) (C : Finset String)
    (pending : List String) : (s.announceRecovered C pending).Announced n := by
  induction pending generalizing s with
  | nil => exact h
  | cons m pending ih =>
    have hnext : (s.note .recovered m).Announced n := h.note m (by simp)
    rw [Watch.announceRecovered]
    split
    · exact hnext
    · exact ih hnext

theorem Announced.announceFailed (h : s.Announced n) (C : Finset String)
    (order pending : List String) : (s.announceFailed C order pending).Announced n := by
  induction pending generalizing s with
  | nil => exact h.announceRecovered ..
  | cons m pending ih =>
    have hnext : (s.note .failed m).Announced n := h.note m (by simp)
    rw [Watch.announceFailed]
    split
    · exact hnext
    · exact ih hnext

def Quiet (n : String) (now : ℝ) : Call ℝ → Prop
  | .removeNode m => m ≠ n
  | .recordHeartbeat m _ => m ≠ n
  | .check now' _ => now ≤ now'
  | _ => True

theorem Announced.step {s t : Watch PhiAccrualDetector} {c : Call ℝ} {now : ℝ}
    (h : s.Announced n) (hc : Quiet n now c) (ht : Transition (phiAccrual 8) s c t) :
    t.Announced n := by
  cases ht with
  | addNode | recordHeartbeat | onFailure | onRecovery | stop | start => exact h
  | removeNode m => exact h.note m fun _ => hc
  | check now order hp hcover => exact h.announceFailed ..
  | failing order C pending hp hcover => exact h.announceFailed ..
  | recovering order C pending hp => exact h.announceRecovered ..

/-- The detector has not heard from the node since, and the loop does not take it for alive. -/
structure Unheard (n : String) (detector : PhiAccrualDetector) (s : Watch PhiAccrualDetector) :
    Prop where
  detector : s.detector.detectors.get? n = some detector
  prospect : n ∉ s.prospect

theorem Unheard.step {s t : Watch PhiAccrualDetector} {c : Call ℝ} {now : ℝ}
    {detector : PhiAccrualDetector} (h : s.Unheard n detector) (hc : Quiet n now c)
    (hlate : ∀ now', now ≤ now' → detector.isAvailable now' = false)
    (ht : Transition (phiAccrual 8) s c t) : t.Unheard n detector where
  detector := by
    rw [ht.get?_detectors n, h.detector]
    cases c with
    | addNode m => simp
    | removeNode m => exact if_neg (Ne.symm hc)
    | recordHeartbeat m now' => exact if_neg hc
    | onFailure | onRecovery | start | stop | check | resume => rfl
  prospect hn := by
    have hsub := ht.prospect_subset hn
    cases c with
    | check now' order =>
      obtain ⟨detector', hget, havailable⟩ := mem_getAliveNodes.mp hsub
      cases h.detector.symm.trans hget
      cases (hlate now' hc).symm.trans havailable
    | addNode | removeNode | recordHeartbeat | onFailure | onRecovery | start | stop | resume =>
      exact h.prospect hsub

/-- A node that is silent for long enough is announced as failed by the next pass and stays so
until it is heard again. -/
theorem silent_announced_failed {s t : Watch PhiAccrualDetector}
    (h : (watch (phiAccrual 8)).Reachable s) {detector : PhiAccrualDetector} {last now : ℝ}
    (hget : s.detector.detectors.get? n = some detector)
    (hlast : detector.lastHeartbeat = some last)
    (hlate : last + detector.mean + 8 * detector.stdDev ≤ now) {calls : List (Call ℝ)}
    (hquiet : ∀ c ∈ calls, Quiet n now c)
    (hr : (watch (phiAccrual 8)).run s (.check now order :: calls) = some t)
    (hpass : t.pass = .sleeping ∨ t.pass = .stopped) :
    n ∉ t.detector.knownAlive ∧
      ((noticesOf s.log n).head? = some .recovered →
        (noticesOf t.log n).head? = some .failed) := by
  have hsilent (now' : ℝ) (hle : now ≤ now') : detector.isAvailable now' = false :=
    (standard_of_reachable h n detector hget).not_available hlast (hlate.trans hle)
  obtain ⟨u, hu, hrest⟩ := Option.bind_eq_some_iff.mp hr
  have hcheck : Transition (phiAccrual 8) s (.check now order) u := step_cases _ hu
  have hunheard : u.Unheard n detector := by
    refine ⟨(hcheck.get?_detectors n).trans hget, fun hn => ?_⟩
    obtain ⟨detector', hget', havailable⟩ := mem_getAliveNodes.mp (hcheck.prospect_subset hn)
    cases hget.symm.trans hget'
    cases (hsilent now le_rfl).symm.trans havailable
  have hfinal : t.Unheard n detector := System.run_kept (I := fun s => s.Unheard n detector)
    (fun s c t hs hc ht => hs.step hc hsilent (step_cases _ ht)) hunheard hquiet hrest
  have hknown : n ∉ t.detector.knownAlive := by
    have hn := hfinal.prospect
    cases hpass with
    | inl hp => rwa [prospect, hp] at hn
    | inr hp => rwa [prospect, hp] at hn
  refine ⟨hknown, fun hrecovered => ?_⟩
  have hfirst : Quiet n now (.check now order) := le_rfl
  have hannounced : u.Announced n := Announced.step (.inl hrecovered) hfirst hcheck
  have hlatest : t.Announced n := System.run_kept (I := fun s => s.Announced n)
    (fun s c t hs hc ht => hs.step hc (step_cases _ ht)) hannounced hquiet hrest
  have hstand : t.standing = t.detector.knownAlive := by
    cases hpass with
    | inl hp => rw [Watch.standing, hp]
    | inr hp => rw [Watch.standing, hp]
  have ht : (watch (phiAccrual 8)).Reachable t := h.run (System.along_trivial _ _) hr
  exact hlatest.resolve_left ((consistent_of_reachable ht).fallen n (hstand ▸ hknown))

theorem silent_announced_failed_heardOnce : ∃ s t : Watch PhiAccrualDetector,
    (watch (phiAccrual 8)).Reachable s ∧
    (watch (phiAccrual 8)).run s [.check 5000 ["a"]] = some t ∧ "a" ∉ t.detector.knownAlive ∧
      ((noticesOf s.log "a").head? = some .recovered →
        (noticesOf t.log "a").head? = some .failed) := by
  let log : List Entry := [⟨"a", .recovered, true⟩]
  have hs : (watch (phiAccrual 8)).Reachable (following {"a"} log) :=
    .step (System.reachable_run run_following) trivial check_heard
  have hr : (watch (phiAccrual 8)).run (following {"a"} log) [.check 5000 ["a"]] =
      some (following ∅ (⟨"a", .failed, true⟩ :: log)) :=
    (Option.bind_fun_some _).trans (check_silent log)
  refine ⟨_, _, hs, hr, silent_announced_failed hs rfl rfl ?_ (by simp) hr (.inl rfl)⟩
  rw [mean_heardOnce, PhiAccrualDetector.heardOnce_stdDev]
  norm_num

end Watch
end DistSync.Detector
