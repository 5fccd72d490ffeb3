import Mathlib.Analysis.SpecialFunctions.Sigmoid
import Mathlib.Analysis.SpecialFunctions.Log.Base
import Mathlib.Analysis.Complex.ExponentialBounds
import Mathlib.Analysis.SpecialFunctions.Pow.Real

/-! The phi accrual detector over exact real numbers. Times are in milliseconds. The
probability that a heartbeat is still to come is the logistic function of a cubic in the
normalised delay; the signs of the source make it rise with the delay up to a point. -/
namespace DistSync.Detector

structure PhiAccrualDetector where
  threshold : ℝ := 8
  windowSize : Nat := 1000
  minStdDeviationMs : ℝ := 500
  acceptableHeartbeatPauseMs : ℝ := 0
  firstHeartbeatEstimateMs : ℝ := 1000
  intervals : List ℝ := []
  lastHeartbeat : Option ℝ := none

/-- `append` to a `deque(maxlen=n)`: what does not fit is dropped on the left. -/
def pushBounded {α : Type} (n : Nat) (xs : List α) (x : α) : List α :=
  (xs ++ [x]).drop (xs.length + 1 - n)

namespace PhiAccrualDetector

/-- Only the threshold is given, as by the failure detector. -/
noncomputable def withThreshold (phiThreshold : ℝ) : PhiAccrualDetector :=
  { threshold := phiThreshold }

noncomputable def heartbeat (d : PhiAccrualDetector) (now : ℝ) : PhiAccrualDetector :=
  let interval := match d.lastHeartbeat with
    | some last => now - last
    | none => d.firstHeartbeatEstimateMs
  { d with
    intervals := pushBounded d.windowSize d.intervals interval
    lastHeartbeat := some now }

noncomputable def mean (d : PhiAccrualDetector) : ℝ := d.intervals.sum / d.intervals.length

noncomputable def variance (d : PhiAccrualDetector) : ℝ :=
  (d.intervals.map fun x => (x - d.mean) ^ 2).sum / d.intervals.length

noncomputable def stdDev (d : PhiAccrualDetector) : ℝ :=
  max (Real.sqrt d.variance) d.minStdDeviationMs

/-- `p_later` as the source computes it. -/
noncomputable def pLater (d : PhiAccrualDetector) (elapsed : ℝ) : ℝ :=
  let diff := elapsed - d.mean - d.acceptableHeartbeatPauseMs
  let exponent := -diff / d.stdDev
  1 - 1 / (1 + Real.exp (-1.5976 * exponent + 0.070566 * exponent ^ 3))

/-- The value for a probability, 999.0 where it is too small for the logarithm. -/
noncomputable def suspicion (p : ℝ) : ℝ := if p < 1e-300 then 999 else -Real.logb 10 p

noncomputable def phi (d : PhiAccrualDetector) (now : ℝ) : ℝ :=
  match d.lastHeartbeat with
  | none => 0
  | some last => if d.intervals.isEmpty then 0 else suspicion (d.pLater (now - last))

noncomputable def isAvailable (d : PhiAccrualDetector) (now : ℝ) : Bool :=
  decide (d.phi now < d.threshold)

end PhiAccrualDetector

section Logistic
variable {t x y : ℝ}

theorem one_sub_one_div_eq_sigmoid (t : ℝ) : 1 - 1 / (1 + Real.exp t) = Real.sigmoid t := by
  rw [← neg_neg t, Real.sigmoid_neg (-t), Real.sigmoid_def, neg_neg, one_div]

theorem sigmoid_ge {n : Nat} (ht : -n ≤ t) : 1 / (1 + 3 ^ n) ≤ Real.sigmoid t := by
  have hexp : Real.exp (-t) ≤ 3 ^ n := by
    calc Real.exp (-t) ≤ Real.exp n := Real.exp_le_exp.mpr (by linarith)
      _ = Real.exp 1 ^ n := by rw [← Real.exp_nat_mul, mul_one]
      _ ≤ 3 ^ n := pow_le_pow_left₀ (Real.exp_pos 1).le Real.exp_one_lt_three.le n
  rw [Real.sigmoid_def, one_div]
  exact inv_anti₀ (by positivity) (by linarith)

/-- The cubic whose logistic value the source takes. -/
noncomputable def cubic (x : ℝ) : ℝ := 1.5976 * x - 0.070566 * x ^ 3

theorem cubic_le_cubic_iff (h : x ≤ y) :
    cubic y ≤ cubic x ↔ x = y ∨ 1.5976 ≤ 0.070566 * (x ^ 2 + x * y + y ^ 2) := by
  have hfactor : cubic x - cubic y =
      (y - x) * (0.070566 * (x ^ 2 + x * y + y ^ 2) - 1.5976) := by
    unfold cubic
    ring
  rw [← sub_nonneg, hfactor]
  rcases h.eq_or_lt with rfl | hlt
  · simp
  · rw [mul_nonneg_iff_of_pos_left (sub_pos.mpr hlt), sub_nonneg, or_iff_right hlt.ne]

/-- Up to 5.5 standard deviations the cubic is bounded below; beyond, it lies under all that
came before. -/
theorem cubic_ge_of_abs_lt (hx : |x| < 5.5) : -21 ≤ cubic x := by
  obtain ⟨hlo, hhi⟩ := abs_lt.mp hx
  unfold cubic
  nlinarith [sq_nonneg x, mul_nonneg (sub_nonneg.mpr hlo.le) (sub_nonneg.mpr hhi.le)]

theorem cubic_ge_of_nonpos (hx : x ≤ 0) : -10 ≤ cubic x := by
  unfold cubic
  by_cases hlo : -5.5 ≤ x
  · nlinarith [mul_nonneg (neg_nonneg.mpr hx) (sq_nonneg x)]
  · have hsq : 30 ≤ x ^ 2 := by nlinarith
    nlinarith

theorem bound_of_le_abs (hy : 5.5 ≤ |y|) : 1.5976 ≤ 0.070566 * (x ^ 2 + x * y + y ^ 2) := by
  have hsq : 30.25 ≤ y ^ 2 := by
    rw [← sq_abs]
    nlinarith
  nlinarith [sq_nonneg (2 * x + y)]

end Logistic

namespace PhiAccrualDetector
variable {d : PhiAccrualDetector} {p q last elapsed now : ℝ}

theorem cutoff_eq : (1e-300 : ℝ) = (10 ^ 300)⁻¹ := by
  rw [NNRatCast.ofScientific_eq_ite, if_pos rfl, NNRat.cast_divNat, Nat.cast_one, Nat.cast_pow,
    Nat.cast_ofNat, one_div]

theorem cutoff_le : (1e-300 : ℝ) ≤ 1e-11 := by
  rw [cutoff_eq]
  calc ((10 ^ 300)⁻¹ : ℝ) ≤ (10 ^ 11)⁻¹ :=
        inv_anti₀ (by positivity) (pow_le_pow_right₀ (by norm_num) (by norm_num))
    _ = 1e-11 := by norm_num

theorem suspicion_le_of_ge (hp : 1e-300 ≤ p) : suspicion p ≤ 300 := by
  have hlog : Real.logb 10 1e-300 = -300 := by
    rw [cutoff_eq, Real.logb_inv, Real.logb_pow, Real.logb_self_eq_one (by norm_num)]
    norm_num
  have hpos : (0 : ℝ) < 1e-300 := by
    rw [cutoff_eq]
    positivity
  have hle := Real.logb_le_logb_of_le (by norm_num : (1 : ℝ) < 10) hpos hp
  rw [suspicion, if_neg hp.not_gt]
  linarith

/-- A smaller probability is more suspect; those below the cut-off are all alike. -/
theorem suspicion_le_iff (hp : 0 < p) (hq : 0 < q) :
    suspicion p ≤ suspicion q ↔ q < 1e-300 ∨ q ≤ p := by
  by_cases hqc : q < 1e-300
  · refine iff_of_true ?_ (.inl hqc)
    rw [suspicion.eq_def q, if_pos hqc]
    by_cases hpc : p < 1e-300
    · rw [suspicion, if_pos hpc]
    · linarith [suspicion_le_of_ge (not_lt.mp hpc)]
  · rw [or_iff_right hqc]
    by_cases hpc : p < 1e-300
    · refine iff_of_false (not_le.mpr ?_) (hpc.trans_le (not_lt.mp hqc)).not_ge
      have hle := suspicion_le_of_ge (not_lt.mp hqc)
      rw [suspicion.eq_def p, if_pos hpc]
      linarith
    · rw [suspicion, suspicion, if_neg hqc, if_neg hpc, neg_le_neg_iff,
        Real.logb_le_logb (by norm_num) hq hp]

/-- How far a silence exceeds the mean interval and the pause allowed. -/
noncomputable def diff (d : PhiAccrualDetector) (elapsed : ℝ) : ℝ :=
  elapsed - d.mean - d.acceptableHeartbeatPauseMs

noncomputable def delay (d : PhiAccrualDetector) (elapsed : ℝ) : ℝ := d.diff elapsed / d.stdDev

theorem pLater_eq (d : PhiAccrualDetector) (elapsed : ℝ) :
    d.pLater elapsed = Real.sigmoid (cubic (d.delay elapsed)) := by
  rw [← one_sub_one_div_eq_sigmoid, pLater, cubic, delay, diff]
  ring_nf

theorem stdDev_pos (h : 0 < d.minStdDeviationMs) : 0 < d.stdDev := lt_max_of_lt_right h

theorem phi_eq (hlast : d.lastHeartbeat = some last) (hi : d.intervals ≠ []) (elapsed : ℝ) :
    d.phi (last + elapsed) = suspicion (Real.sigmoid (cubic (d.delay elapsed))) := by
  have hne : d.intervals.isEmpty = false := by simpa using hi
  rw [← pLater_eq]
  simp [phi, hlast, hne]

theorem phi_le_phi_iff {e₁ e₂ : ℝ} (hlast : d.lastHeartbeat = some last) (hi : d.intervals ≠ [])
    (hmin : 0 < d.minStdDeviationMs) (he : e₁ ≤ e₂) :
    d.phi (last + e₁) ≤ d.phi (last + e₂) ↔
      e₁ = e₂ ∨
        1.5976 ≤ 0.070566 * (d.delay e₁ ^ 2 + d.delay e₁ * d.delay e₂ + d.delay e₂ ^ 2) := by
  have hs := stdDev_pos hmin
  have hle : d.delay e₁ ≤ d.delay e₂ := by
    unfold delay diff
    gcongr
  have heq : d.delay e₁ = d.delay e₂ ↔ e₁ = e₂ := by
    rw [delay, delay, div_left_inj' hs.ne', diff, diff, sub_left_inj, sub_left_inj]
  rw [phi_eq hlast hi, phi_eq hlast hi,
    suspicion_le_iff (Real.sigmoid_pos _) (Real.sigmoid_pos _), Real.sigmoid_le_iff,
    cubic_le_cubic_iff hle, heq]
  refine or_iff_right_of_imp fun hcut => .inr (bound_of_le_abs ?_)
  -- the cut-off is reached only where the cubic has long been falling
  by_contra habs
  have hge := sigmoid_ge (n := 21) (cubic_ge_of_abs_lt (not_le.mp habs))
  have hlt := hge.trans_lt (hcut.trans_le cutoff_le)
  norm_num at hlt

/-- A longer silence is at least as suspect as a shorter one exactly if both together exceed what
is usual by enough: near the mean the suspicion falls. -/
theorem suspicion_grows_iff (d : PhiAccrualDetector) {last e₁ e₂ : ℝ}
    (hlast : d.lastHeartbeat = some last) (hi : d.intervals ≠ [])
    (hmin : 0 < d.minStdDeviationMs) (he : e₁ ≤ e₂) :
    d.phi (last + e₁) ≤ d.phi (last + e₂) ↔ e₁ = e₂ ∨ 1.5976 * d.stdDev ^ 2 ≤
      0.070566 * (d.diff e₁ ^ 2 + d.diff e₁ * d.diff e₂ + d.diff e₂ ^ 2) := by
  have hs := stdDev_pos hmin
  have hscale : d.delay e₁ ^ 2 + d.delay e₁ * d.delay e₂ + d.delay e₂ ^ 2 =
      (d.diff e₁ ^ 2 + d.diff e₁ * d.diff e₂ + d.diff e₂ ^ 2) / d.stdDev ^ 2 := by
    unfold delay
    field_simp
  rw [phi_le_phi_iff hlast hi hmin he, hscale, ← mul_div_assoc, le_div_iff₀ (by positivity)]

/-- The detector with its default settings and a first heartbeat at time 0. -/
noncomputable def heardOnce : PhiAccrualDetector := ({} : PhiAccrualDetector).heartbeat 0

theorem heardOnce_intervals : heardOnce.intervals = [1000] := rfl

theorem heardOnce_diff (elapsed : ℝ) : heardOnce.diff elapsed = elapsed - 1000 := by
  have hpause : heardOnce.acceptableHeartbeatPauseMs = 0 := rfl
  simp [diff, mean, heardOnce_intervals, hpause]

theorem heardOnce_stdDev : heardOnce.stdDev = 500 := by
  have hmin : heardOnce.minStdDeviationMs = 500 := rfl
  simp [stdDev, variance, mean, heardOnce_intervals, hmin]

theorem suspicion_grows_heardOnce : heardOnce.phi (0 + 1000) ≤ heardOnce.phi (0 + 4000) := by
  refine (suspicion_grows_iff heardOnce rfl (List.cons_ne_nil _ _) ?_ (by norm_num)).mpr (.inr ?_)
  · change (0 : ℝ) < 500
    norm_num
  · rw [heardOnce_stdDev, heardOnce_diff, heardOnce_diff]
    norm_num

theorem suspicion_not_monotone : ¬ ∀ (d : PhiAccrualDetector) (last e₁ e₂ : ℝ),
    d.lastHeartbeat = some last → d.intervals ≠ [] → (∀ x ∈ d.intervals, 0 ≤ x) →
    0 < d.minStdDeviationMs → 0 ≤ e₁ → e₁ ≤ e₂ → d.phi (last + e₁) ≤ d.phi (last + e₂) := by
  intro h
  have hmin : 0 < heardOnce.minStdDeviationMs := by
    change (0 : ℝ) < 500
    norm_num
  have hne : heardOnce.intervals ≠ [] := List.cons_ne_nil _ _
  have hle := h heardOnce 0 1000 1500 rfl hne
    (by simp [heardOnce_intervals]) hmin (by norm_num) (by norm_num)
  rw [phi_le_phi_iff rfl hne hmin (by norm_num), delay, delay, heardOnce_diff, heardOnce_diff,
    heardOnce_stdDev] at hle
  norm_num at hle

section Availability

/-- What the clock's order gives: no interval is negative and the last heartbeat is past. -/
structure Timed (d : PhiAccrualDetector) (now : ℝ) : Prop where
  interval : ∀ x ∈ d.intervals, 0 ≤ x
  last : ∀ t ∈ d.lastHeartbeat, t ≤ now
  estimate : 0 ≤ d.firstHeartbeatEstimateMs

theorem mem_pushBounded {α : Type} {n : Nat} {xs : List α} {x y : α}
    (h : y ∈ pushBounded n xs x) : y ∈ xs ∨ y = x := by
  simpa using List.mem_of_mem_drop h

theorem Timed.heartbeat (h : d.Timed now) : (d.heartbeat now).Timed now where
  interval x hx := by
    cases mem_pushBounded hx with
    | inl hx => exact h.interval x hx
    | inr hx =>
      rw [hx]
      cases hlast : d.lastHeartbeat with
      | none => exact h.estimate
      | some t => exact sub_nonneg.mpr (h.last t hlast)
  last t ht := (Option.some.inj ht).ge
  estimate := h.estimate

theorem Timed.mono {now' : ℝ} (h : d.Timed now) (hle : now ≤ now') : d.Timed now' where
  interval := h.interval
  last t ht := (h.last t ht).trans hle
  estimate := h.estimate

theorem mean_nonneg (h : d.Timed now) : 0 ≤ d.mean :=
  div_nonneg (List.sum_nonneg h.interval) (Nat.cast_nonneg _)

theorem suspicion_lt (hp : 1e-8 < p) : suspicion p < 8 := by
  have hsmall : (1e-11 : ℝ) < p := (by norm_num : (1e-11 : ℝ) < 1e-8).trans hp
  have hcut : ¬ p < 1e-300 := (cutoff_le.trans_lt hsmall).not_gt
  have hlog : Real.logb 10 1e-8 = -8 := by
    rw [show (1e-8 : ℝ) = (10 ^ 8)⁻¹ by norm_num, Real.logb_inv, Real.logb_pow,
      Real.logb_self_eq_one (by norm_num)]
    norm_num
  have hlt := Real.logb_lt_logb (by norm_num : (1 : ℝ) < 10) (by norm_num) hp
  rw [suspicion, if_neg hcut]
  linarith

/-- At the instant of a heartbeat the delay is not positive, and so the suspicion is small. -/
theorem phi_heartbeat_lt (h : d.Timed now) (hmin : 0 < d.minStdDeviationMs)
    (hpause : 0 ≤ d.acceptableHeartbeatPauseMs) : (d.heartbeat now).phi now < 8 := by
  have hlast : (d.heartbeat now).lastHeartbeat = some now := rfl
  by_cases hi : (d.heartbeat now).intervals = []
  · simp [phi, hlast, hi]
  · have hdelay : (d.heartbeat now).delay 0 ≤ 0 := by
      refine div_nonpos_of_nonpos_of_nonneg ?_ (stdDev_pos (d := d.heartbeat now) hmin).le
      have hmean := mean_nonneg h.heartbeat
      have hsame :
          (d.heartbeat now).acceptableHeartbeatPauseMs = d.acceptableHeartbeatPauseMs := rfl
      rw [diff, hsame]
      linarith
    have hge := sigmoid_ge (n := 10) (cubic_ge_of_nonpos hdelay)
    have hphi := phi_eq hlast hi 0
    rw [add_zero] at hphi
    rw [hphi]
    exact suspicion_lt (lt_of_lt_of_le (by norm_num) hge)

noncomputable def heard (d : PhiAccrualDetector) (times : List ℝ) : PhiAccrualDetector :=
  times.foldl heartbeat d

theorem Timed.heard {times : List ℝ} (h : ∀ t ∈ times ++ [now], d.Timed t)
    (hclock : (times ++ [now]).Pairwise (· ≤ ·)) : (d.heard times).Timed now := by
  induction times generalizing d with
  | nil => exact h now List.mem_cons_self
  | cons t times ih =>
    obtain ⟨hle, hclock⟩ := List.pairwise_cons.mp hclock
    exact ih (fun t' ht' => (h t List.mem_cons_self).heartbeat.mono (hle t' ht')) hclock

theorem settings_heard (d : PhiAccrualDetector) (times : List ℝ) :
    (d.heard times).threshold = d.threshold ∧
      (d.heard times).minStdDeviationMs = d.minStdDeviationMs ∧
      (d.heard times).acceptableHeartbeatPauseMs = d.acceptableHeartbeatPauseMs := by
  induction times generalizing d with
  | nil => exact ⟨rfl, rfl, rfl⟩
  | cons t times ih => exact ih (d.heartbeat t)

end Availability

/-- Whatever a detector has heard before, the node is available at the instant of a heartbeat. -/
theorem available_at_heartbeat (d : PhiAccrualDetector) (times : List ℝ) (now : ℝ)
    (hnew : d.intervals = [] ∧ d.lastHeartbeat = none) (hthreshold : d.threshold = 8)
    (hmin : 0 < d.minStdDeviationMs) (hestimate : 0 ≤ d.firstHeartbeatEstimateMs)
    (hpause : 0 ≤ d.acceptableHeartbeatPauseMs) (hclock : (times ++ [now]).Pairwise (· ≤ ·)) :
    ((d.heard times).heartbeat now).isAvailable now = true := by
  obtain ⟨ht, hm, hp⟩ := settings_heard d times
  have hfresh (t : ℝ) : d.Timed t :=
    ⟨by simp [hnew.1], by simp [hnew.2], hestimate⟩
  have htimed : (d.heard times).Timed now := Timed.heard (fun t _ => hfresh t) hclock
  have hlt := phi_heartbeat_lt htimed (hm ▸ hmin) (hp ▸ hpause)
  have hsame : ((d.heard times).heartbeat now).threshold = 8 := ht.trans hthreshold
  rw [isAvailable, hsame]
  exact decide_eq_true hlt

theorem available_at_heartbeat_default :
    ((({} : PhiAccrualDetector).heard [0, 1000]).heartbeat 5000).isAvailable 5000 = true :=
  available_at_heartbeat {} [0, 1000] 5000 ⟨rfl, rfl⟩ rfl (by norm_num) (by norm_num) le_rfl
    (by norm_num)

end PhiAccrualDetector
end DistSync.Detector
