import DistSync.Locking.Holdings
import DistSync.Locking.Answers

/-! The lock service as its clients see it. Who was told GRANTED holds the lock until somebody asks
to give it back; so of two `acquire` calls that exclude each other and were both told GRANTED, by
whichever nodes, one had its lock given back on request before the other was granted it. -/
namespace DistSync.Locking
open Raft
variable {Id Addr Client Resource : Type}
  [DecidableEq Id] [DecidableEq Addr] [DecidableEq Client] [DecidableEq Resource]
variable {W : Wiring Id Addr} {s t : LockCluster Id Addr Client Resource}
  {a : LockAction Id Client Resource} {c : Client} {r : Resource}
  {req req' : LockRequest Client Resource Nat}

def LockAction.Returns (c : Client) (r : Resource) : LockAction Id Client Resource → Prop
  | .release _ client resource => client = c ∧ resource = r
  | .abort _ client resource => client = c ∧ resource = r
  | _ => False

/-- `first` was granted, then given back, and then `second` was granted. -/
def InTurn (h : List (LockEvent Client Resource Nat))
    (first second : LockRequest Client Resource Nat) : Prop :=
  ∃ now now' l₁ l₂ l₃, h = l₁ ++ .granted second now' :: (l₂ ++ .granted first now :: l₃) ∧
    .released first.clientId first.resourceId ∈ l₂

section Replay
variable {l : List (LogEntry Id (LockCommand Client Resource Nat))}

omit [DecidableEq Client] [DecidableEq Resource] in
theorem Table.frees_of_records {T : Table Client Resource Nat}
    {cmd : LockCommand Client Resource Nat} (h : .released c r ∈ T.records cmd) :
    cmd.Frees c r := by
  have hrelease (client : Client) (resource : Resource)
      (h : .released c r ∈ T.records (.release client resource)) :
      client = c ∧ resource = r := by
    rw [Table.records] at h
    split at h
    · cases List.mem_singleton.mp h
      exact ⟨rfl, rfl⟩
    · cases h
  cases cmd with
  | acquire q =>
    rw [Table.records] at h
    split at h
    · cases h
    · cases List.mem_singleton.mp h
  | release client resource => exact hrelease client resource h
  | cancel q client resource => cases List.mem_singleton.mp h
  | abort client resource => exact hrelease client resource h

omit [DecidableEq Id] in
theorem exists_frees (h : .released c r ∈ (replayed l).history) :
    ∃ cmd ∈ commands l, cmd.Frees c r := by
  induction l using List.reverseRecOn with
  | nil => cases h
  | append_singleton l e ih =>
    rw [replayed_append, List.foldl_cons, List.foldl_nil, LockManager.applyEntry] at h
    rw [commands_append]
    have hold (h : .released c r ∈ (replayed l).history) :
        ∃ cmd ∈ commands l ++ commands [e], cmd.Frees c r := by
      obtain ⟨cmd, hcmd, hf⟩ := ih h
      exact ⟨cmd, List.mem_append_left _ hcmd, hf⟩
    cases hc : e.command with
    | noOp n =>
      rw [hc] at h
      exact hold h
    | client cmd =>
      rw [hc] at h
      dsimp only at h
      rw [(replays_replayed l).refines.history_apply, List.mem_append, List.mem_append] at h
      rcases h with hgranted | hrecord | hrest
      · simp at hgranted
      · refine ⟨cmd, List.mem_append_right _ ?_, Table.frees_of_records hrecord⟩
        exact mem_commands.mpr ⟨e, List.mem_singleton_self e, hc⟩
      · exact hold hrest

omit [DecidableEq Id] in
theorem mem_history_replayed_append {e : LockEvent Client Resource Nat}
    (l' : List (LogEntry Id (LockCommand Client Resource Nat)))
    (h : e ∈ (replayed l).history) : e ∈ (replayed (l ++ l')).history := by
  induction l' using List.reverseRecOn with
  | nil => rwa [List.append_nil]
  | append_singleton l' entry ih =>
    rw [← List.append_assoc, replayed_append, List.foldl_cons, List.foldl_nil]
    exact (keeps_mem_history e).applyEntry ih 0 entry

end Replay

section Origin
variable {e : LogEntry Id (LockCommand Client Resource Nat)} {i : Nat}
  {cmd : LockCommand Client Resource Nat}

theorem LockTransition.returns_of_frees (ht : LockTransition W s a t) (ho : OccursAt t.raft e i)
    (hc : e.command = .client cmd) (hf : cmd.Frees c r) :
    OccursAt s.raft e i ∨ a.Returns c r := by
  have hstep {b : Action Id (LockCommand Client Resource Nat)}
      (hs : (Raft.raft W _).step s.raft b = some t.raft)
      (hb : ∀ n, b = .propose n cmd → a.Returns c r) : OccursAt s.raft e i ∨ a.Returns c r := by
    refine (occursAt_step hs ho).imp_right fun hfresh => ?_
    rcases hfresh.command with ⟨n, hn⟩ | ⟨n, d, hd, he, -⟩
    · cases hc.symm.trans hn
    · cases hc.symm.trans he
      exact hb n hd
  have hpropose {n : Id} {d : LockCommand Client Resource Nat} (hraft : t.raft = s.raft.propose n d)
      (hd : d.Frees c r → a.Returns c r) : OccursAt s.raft e i ∨ a.Returns c r := by
    refine hstep (b := .propose n d) (congrArg some hraft.symm) fun m hm => ?_
    cases hm
    exact hd hf
  cases ht with
  | raft b raft' hi hs =>
    refine hstep hs fun n hn => ?_
    subst hn
    cases hi
  | release n client resource => exact hpropose rfl id
  | abort n client resource => exact hpropose rfl id
  | acquire n client resource lockType timeout => exact hpropose rfl False.elim
  | cancel j call hcall => exact hpropose rfl False.elim
  | finish n k raft' hs => exact hstep (b := .finishPropose n k) hs fun m hm => by cases hm
  | commit n k raft' hs => exact hstep (b := .finishPropose n k) hs fun m hm => by cases hm
  | deny n k raft' hs => exact hstep (b := .finishPropose n k) hs fun m hm => by cases hm
  | apply n now raft' hs => exact hstep (b := .applyNext n) hs fun m hm => by cases hm
  | reject n client resource lockType timeout => exact .inl ho
  | wake j call hcall status hd => exact .inl ho
  | giveUp j call hcall hd => exact .inl ho

theorem exists_returns {as : List (LockAction Id Client Resource)}
    (hr : (service W Client Resource).run (service W Client Resource).init as = some s)
    (ho : OccursAt s.raft e i) (hc : e.command = .client cmd) (hf : cmd.Frees c r) :
    ∃ a ∈ as, a.Returns c r := by
  refine System.run_invariant (I := fun as s => OccursAt s.raft e i → ∃ a ∈ as, a.Returns c r) ?_
    (fun as a s t _ hi hs ho => ?_) hr ho
  · intro ho
    cases ho with
    | log n h => cases h
    | request _ _ _ _ _ _ _ hm => cases hm
  · cases (service_cases hs).returns_of_frees ho hc hf with
    | inl ho =>
      obtain ⟨b, hb, hret⟩ := hi ho
      exact ⟨b, List.mem_append_left _ hb, hret⟩
    | inr hret => exact ⟨a, List.mem_append_right _ (List.mem_singleton_self a), hret⟩

end Origin

section Safe
variable (hW : W.Complete) (h : (service W Client Resource).Reach (SafeRaft W) s)
include hW h

theorem mem_timeless_history {n : Id} {e : LockEvent Client Resource Nat} :
    e ∈ (s.managers n).history.map LockEvent.timeless ↔ e ∈ (replayed (applied s n)).history := by
  rw [← replica_eq_replayed hW h n]
  rfl

/-- What a node granted the nodes that have applied more have granted too. -/
theorem granted_ahead {p q : Id} {now : Rat}
    (hpq : (s.raft.nodes p).lastApplied ≤ (s.raft.nodes q).lastApplied)
    (hg : .granted req now ∈ (s.managers p).history) :
    ∃ now', .granted req now' ∈ (s.managers q).history := by
  obtain ⟨rest, hrest⟩ := applied_isPrefix hW h hpq
  have hp : .granted req 0 ∈ (replayed (applied s p)).history :=
    (mem_timeless_history hW h).mp (List.mem_map_of_mem hg)
  have hq : .granted req 0 ∈ (replayed (applied s q)).history :=
    hrest ▸ mem_history_replayed_append rest hp
  obtain ⟨e, he, hsame⟩ := List.mem_map.mp ((mem_timeless_history hW h).mpr hq)
  cases e with
  | granted req' now' =>
    cases hsame
    exact ⟨now', he⟩
  | _ => cases hsame

theorem returned_of_released {as : List (LockAction Id Client Resource)}
    (hr : (service W Client Resource).run (service W Client Resource).init as = some s) {n : Id}
    (hrel : .released c r ∈ (s.managers n).history) : ∃ a ∈ as, a.Returns c r := by
  have hraft := safeRaft_reach h
  have hM := MachineInv.reach hW hraft (disciplined_of_safeStep hW hraft)
  obtain ⟨cmd, hcmd, hf⟩ := exists_frees ((mem_timeless_history hW h).mp (List.mem_map_of_mem hrel))
  obtain ⟨e, he, hc⟩ := mem_commands.mp hcmd
  obtain ⟨i, hi⟩ := List.mem_iff_getElem?.mp he
  exact exists_returns hr (occursAt_applied hM hi) hc hf

end Safe

theorem inTurn_of_granted (h : (service W Client Resource).Reachable s) {n : Id} {now now' : Rat}
    (hg : .granted req now ∈ (s.managers n).history)
    (hg' : .granted req' now' ∈ (s.managers n).history) (hne : req ≠ req')
    (hr : req'.resourceId = req.resourceId)
    (hx : req.lockType = .exclusive ∨ req'.lockType = .exclusive) :
    InTurn (s.managers n).history req req' ∨ InTurn (s.managers n).history req' req := by
  have htimely := timely_managers h n
  obtain ⟨newer, older, hsplit⟩ := List.append_of_mem hg
  have hother : .granted req' now' ∈ newer ∨ .granted req' now' ∈ older := by
    rw [hsplit, List.mem_append, List.mem_cons] at hg'
    refine hg'.imp_right fun hg' => hg'.resolve_left fun he => ?_
    cases he
    exact hne rfl
  cases hother with
  | inl hnewer =>
    obtain ⟨l₁, l₂, hl⟩ := List.append_of_mem hnewer
    left
    have hh : (s.managers n).history =
        l₁ ++ .granted req' now' :: (l₂ ++ .granted req now :: older) := by
      rw [hsplit, hl, List.append_assoc, List.cons_append]
    exact ⟨now, now', l₁, l₂, older, hh, htimely.released_between hh hr hx⟩
  | inr holder =>
    obtain ⟨l₂, l₃, hl⟩ := List.append_of_mem holder
    right
    have hh : (s.managers n).history =
        newer ++ .granted req now :: (l₂ ++ .granted req' now' :: l₃) := by rw [hsplit, hl]
    exact ⟨now', now, newer, l₂, l₃, hh, htimely.released_between hh hr.symm hx.symm⟩

omit [DecidableEq Client] [DecidableEq Resource] in
theorem InTurn.released {h : List (LockEvent Client Resource Nat)} (ht : InTurn h req req') :
    .released req.clientId req.resourceId ∈ h := by
  obtain ⟨now, now', l₁, l₂, l₃, rfl, hrel⟩ := ht
  exact List.mem_append_right _ (List.mem_cons_of_mem _ (List.mem_append_left _ hrel))

/-- Where Raft keeps its disciplines, of two calls that exclude each other and that were told
GRANTED, by any nodes, one was granted on some node only after the other's lock was given back
there, and somebody had asked for that. -/
theorem excluded_in_turn (hW : W.Complete) {as : List (LockAction Id Client Resource)}
    (hrun : (service W Client Resource).run (service W Client Resource).init as = some s)
    (hsafe : (service W Client Resource).Along (fun s a _ => SafeRaft W s a)
      (service W Client Resource).init as)
    (htold : (req, .granted) ∈ s.returned) (htold' : (req', .granted) ∈ s.returned)
    (hne : req ≠ req') (hr : req'.resourceId = req.resourceId)
    (hx : req.lockType = .exclusive ∨ req'.lockType = .exclusive) :
    ∃ n first second, (first = req ∧ second = req' ∨ first = req' ∧ second = req) ∧
      InTurn (s.managers n).history first second ∧
      ∃ a ∈ as, a.Returns first.clientId first.resourceId := by
  have h : (service W Client Resource).Reach (SafeRaft W) s := System.Reach.run .init hsafe hrun
  have hgranted {q : LockRequest Client Resource Nat} (hq : (q, .granted) ∈ s.returned) :
      ∃ n now, .granted q now ∈ (s.managers n).history :=
    ((told_cases h hq).resolve_left (by simp)).2
  have hboth : ∃ n now now', .granted req now ∈ (s.managers n).history ∧
      .granted req' now' ∈ (s.managers n).history := by
    obtain ⟨p, now, hp⟩ := hgranted htold
    obtain ⟨q, now', hq⟩ := hgranted htold'
    cases Nat.le_total (s.raft.nodes p).lastApplied (s.raft.nodes q).lastApplied with
    | inl hpq =>
      obtain ⟨now'', hg⟩ := granted_ahead hW h hpq hp
      exact ⟨q, now'', now', hg, hq⟩
    | inr hqp =>
      obtain ⟨now'', hg⟩ := granted_ahead hW h hqp hq
      exact ⟨p, now, now'', hp, hg⟩
  obtain ⟨n, now, now', hg, hg'⟩ := hboth
  cases inTurn_of_granted h.reachable hg hg' hne hr hx with
  | inl ht => exact ⟨n, req, req', .inl ⟨rfl, rfl⟩, ht, returned_of_released hW h hrun ht.released⟩
  | inr ht => exact ⟨n, req', req, .inr ⟨rfl, rfl⟩, ht, returned_of_released hW h hrun ht.released⟩

/-- Client 7 is told GRANTED, releases, and then client 8 is told so. -/
def bothServed : List (LockAction (Fin 3) Nat Nat) :=
  passedOn ++ [.finishPropose 0 1, .finishPropose 0 1, .wake 0, .wake 0]

theorem safe_bothServed : (service (mesh 3) Nat Nat).Along (fun s a _ => SafeRaft (mesh 3) s a)
    (service (mesh 3) Nat Nat).init bothServed := by
  decide +kernel

theorem excluded_in_turn_bothServed :
    ∃ s, (service (mesh 3) Nat Nat).run (service (mesh 3) Nat Nat).init bothServed = some s ∧
      s.returned = [(⟨1, 8, 5, .exclusive, 30⟩, .granted), (⟨0, 7, 5, .exclusive, 30⟩, .granted)] ∧
      ∃ n first second, (first = ⟨0, 7, 5, .exclusive, 30⟩ ∧ second = ⟨1, 8, 5, .exclusive, 30⟩ ∨
        first = ⟨1, 8, 5, .exclusive, 30⟩ ∧ second = ⟨0, 7, 5, .exclusive, 30⟩) ∧
        InTurn (s.managers n).history first second ∧
        ∃ a ∈ bothServed, a.Returns first.clientId first.resourceId := by
  have hrun : ((service (mesh 3) Nat Nat).run (service (mesh 3) Nat Nat).init bothServed).any
      (fun s => s.returned =
        [(⟨1, 8, 5, .exclusive, 30⟩, .granted), (⟨0, 7, 5, .exclusive, 30⟩, .granted)]) = true := by
    decide +kernel
  obtain ⟨s, hs, hl⟩ := (Option.any_eq_true ..).mp hrun
  have hret := of_decide_eq_true hl
  refine ⟨s, hs, hret, ?_⟩
  exact excluded_in_turn (mesh_complete 3) hs safe_bothServed (by simp [hret]) (by simp [hret])
    (by simp) rfl (.inl rfl)

/-- Who was told GRANTED and whose lock nobody asks to give back holds it as granted, on some node
and on all that have applied as much. -/
theorem held_unless_returned (hW : W.Complete) {as : List (LockAction Id Client Resource)}
    (hrun : (service W Client Resource).run (service W Client Resource).init as = some s)
    (hsafe : (service W Client Resource).Along (fun s a _ => SafeRaft W s a)
      (service W Client Resource).init as)
    (htold : (req, .granted) ∈ s.returned)
    (hnot : ∀ a ∈ as, ¬ a.Returns req.clientId req.resourceId) :
    ∃ n, ∀ m, (s.raft.nodes n).lastApplied ≤ (s.raft.nodes m).lastApplied →
      ∃ x, (s.managers m).holding req.resourceId req.clientId = some x ∧
        (req.lockType = .exclusive → x = true) := by
  have h : (service W Client Resource).Reach (SafeRaft W) s := System.Reach.run .init hsafe hrun
  obtain ⟨n, now, hn⟩ := ((told_cases h htold).resolve_left (by simp)).2
  refine ⟨n, fun m hm => ?_⟩
  obtain ⟨now', hg⟩ := granted_ahead hW h hm hn
  obtain ⟨newer, older, hsplit⟩ := List.append_of_mem hg
  obtain ⟨hlegal, hholds⟩ := timely_managers h m req.resourceId
  have hkept : .release req.clientId ∉ timeline req.resourceId newer := by
    intro hrel
    have hmem : .released req.clientId req.resourceId ∈ (s.managers m).history := by
      rw [hsplit]
      exact List.mem_append_left _ (released_of_release hrel)
    obtain ⟨a, ha, hret⟩ := returned_of_released hW h hrun hmem
    exact hnot a ha hret
  have hline : timeline req.resourceId (s.managers m).history =
      timeline req.resourceId newer ++ .grant req.clientId (req.lockType = .exclusive) ::
        timeline req.resourceId older := by
    rw [hsplit, timeline_append, timeline_granted rfl]
  rw [hline] at hlegal hholds
  obtain ⟨x, hx, hmode⟩ := hlegal.holds hkept
  exact ⟨x, (hholds _).symm.trans hx, fun he => hmode (by simp [he])⟩

theorem held_unless_returned_bothServed :
    ∃ s, (service (mesh 3) Nat Nat).run (service (mesh 3) Nat Nat).init bothServed = some s ∧
      (⟨1, 8, 5, .exclusive, 30⟩, .granted) ∈ s.returned ∧
      ∃ n, ∀ m, (s.raft.nodes n).lastApplied ≤ (s.raft.nodes m).lastApplied →
        ∃ x, (s.managers m).holding 5 8 = some x ∧ (LockType.exclusive = .exclusive → x = true) := by
  have hrun : ((service (mesh 3) Nat Nat).run (service (mesh 3) Nat Nat).init bothServed).any
      (fun s => (⟨1, 8, 5, .exclusive, 30⟩, .granted) ∈ s.returned) = true := by
    decide +kernel
  obtain ⟨s, hs, hl⟩ := (Option.any_eq_true ..).mp hrun
  have hret := of_decide_eq_true hl
  refine ⟨s, hs, hret, ?_⟩
  exact held_unless_returned (mesh_complete 3) hs safe_bothServed hret
    (by simp [bothServed, passedOn, LockAction.Returns])

end DistSync.Locking
