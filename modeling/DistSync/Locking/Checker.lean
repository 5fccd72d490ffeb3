import Mathlib.Data.Finset.Sort
import DistSync.Locking.Holdings

/-! The timeout checker. It collects who holds expired locks and then releases them one after the
other, waiting for consensus each time; a release names client and resource but not the
acquisition, so it ends the one that it finds. -/
namespace DistSync.Locking

/-- An entry of the checker's list `expired`. `taken` is how long the history was when the list
was made; nothing reads it. -/
structure Expired (Client Resource : Type) where
  clientId : Client
  resourceId : Resource
  taken : Nat
deriving DecidableEq

/-- A lock manager with its timeout checker: what the checker has still to go through, and its
`lock_release` proposals that are not applied yet. -/
structure CheckedManager (Client Resource Request : Type) where
  manager : LockManager Client Resource Request := {}
  expired : List (Expired Client Resource) := []
  proposed : List (Expired Client Resource) := []

/-- `apply` stands for every command that is not the checker's. The checker makes its list and
proposes the first release on it, or skips it when it does not lead; the `k`-th of its proposals
is applied. -/
inductive CheckerAction (Client Resource Request : Type) where
  | apply (now : Rat) (command : LockCommand Client Resource Request)
  | check (now : Rat) (order : Finset Client → List Client)
  | propose
  | skip
  | release (now : Rat) (k : Nat)

variable {Client Resource Request : Type}
  [DecidableEq Client] [DecidableEq Resource]
variable {m : LockManager Client Resource Request} {T : Table Client Resource Request}
  {now : Rat} {r : Resource} {c : Client} {es h : List (LockEvent Client Resource Request)}

/-- The pairs that `_timeout_checker` collects, the holders of each lock in the given order. -/
def LockManager.expired (m : LockManager Client Resource Request) (now : Rat)
    (order : Finset Client → List Client) : List (Expired Client Resource) :=
  m.locks.entries.flatMap fun e =>
    if e.2.isExpired now ∧ e.2.holderIds ≠ ∅ then
      (order e.2.holderIds).map fun client =>
        { clientId := client, resourceId := e.1, taken := m.history.length }
    else []

def checker (Client Resource Request : Type)
    [DecidableEq Client] [DecidableEq Resource] [DecidableEq Request] :
    System (CheckedManager Client Resource Request) (CheckerAction Client Resource Request) where
  init := {}
  step s
    | .apply now command => some { s with manager := s.manager.applyCommand now command }
    | .check now order =>
      if s.expired = [] then some { s with expired := s.manager.expired now order } else none
    | .propose =>
      match s.expired with
      | [] => none
      | x :: xs => some { s with expired := xs, proposed := s.proposed ++ [x] }
    | .skip =>
      match s.expired with
      | [] => none
      | _ :: xs => some { s with expired := xs }
    | .release now k =>
      match s.proposed[k]? with
      | none => none
      | some x =>
        some { s with
          manager := s.manager.applyCommand now (.release x.clientId x.resourceId)
          proposed := s.proposed.eraseIdx k }

def CheckedManager.since (s : CheckedManager Client Resource Request)
    (x : Expired Client Resource) : List (LockEvent Client Resource Request) :=
  s.manager.history.take (s.manager.history.length - x.taken)

def LockEvent.Grants (client : Client) (resource : Resource) :
    LockEvent Client Resource Request → Prop
  | .granted req _ => req.clientId = client ∧ req.resourceId = resource
  | .queued _ => False
  | .released _ _ => False
  | .cancelled _ _ => False

instance (client : Client) (resource : Resource) :
    (e : LockEvent Client Resource Request) → Decidable (e.Grants client resource)
  | .granted _ _ => inferInstanceAs (Decidable (_ ∧ _))
  | .queued _ => .isFalse id
  | .released _ _ => .isFalse id
  | .cancelled _ _ => .isFalse id

/-- A release of the checker takes nothing that was granted since it made its list. -/
def SparesLater (s : CheckedManager Client Resource Request) :
    CheckerAction Client Resource Request → Prop
  | .release _ k => ∀ x ∈ s.proposed[k]?, s.manager.Holds x.clientId x.resourceId →
      ∀ e ∈ s.since x, ¬ e.Grants x.clientId x.resourceId
  | _ => True

/-- When a release of the checker is applied, whatever its client was granted of the resource
since the checker made its list has been released already. -/
def GaveBack (s : CheckedManager Client Resource Request) :
    CheckerAction Client Resource Request → Prop
  | .release _ k => ∀ x ∈ s.proposed[k]?, ∀ newer e older, s.since x = newer ++ e :: older →
      e.Grants x.clientId x.resourceId → .released x.clientId x.resourceId ∈ newer
  | _ => True

/-- The history tells that the client holds the resource: it was granted it, and not released
since. -/
def HeldBy (c : Client) (r : Resource) : List (LockEvent Client Resource Request) → Prop
  | [] => False
  | .granted req _ :: h => req.clientId = c ∧ req.resourceId = r ∨ HeldBy c r h
  | .queued _ :: h => HeldBy c r h
  | .released client resource :: h => ¬ (client = c ∧ resource = r) ∧ HeldBy c r h
  | .cancelled _ _ :: h => HeldBy c r h

omit [DecidableEq Client] [DecidableEq Resource] in
theorem heldBy_append (hn : .released c r ∉ es) (hh : HeldBy c r h) : HeldBy c r (es ++ h) := by
  induction es with
  | nil => exact hh
  | cons e es ih =>
    have hrest := ih fun hm => hn (List.mem_cons_of_mem e hm)
    cases e with
    | granted req t => exact .inr hrest
    | queued req => exact hrest
    | released client resource =>
      refine ⟨?_, hrest⟩
      rintro ⟨rfl, rfl⟩
      exact hn List.mem_cons_self
    | cancelled q resource => exact hrest

theorem not_heldBy_append
    (hg : ∀ newer e older, es = newer ++ e :: older → e.Grants c r → .released c r ∈ newer)
    (hs : ∃ e ∈ es, e.Grants c r) : ¬ HeldBy c r (es ++ h) := by
  induction es with
  | nil =>
    obtain ⟨e, he, -⟩ := hs
    cases he
  | cons e es ih =>
    have hfirst : ¬ e.Grants c r := fun hx => by cases hg [] e es rfl hx
    have hs' : ∃ e ∈ es, e.Grants c r := by
      obtain ⟨d, hd, hx⟩ := hs
      cases List.mem_cons.mp hd with
      | inl hde => exact absurd (hde ▸ hx) hfirst
      | inr hd => exact ⟨d, hd, hx⟩
    by_cases hr : e = .released c r
    · subst hr
      exact fun hx => hx.1 ⟨rfl, rfl⟩
    · have hrest := ih (fun newer d older hd hx => (List.mem_cons.mp
        (hg (e :: newer) d older (by rw [hd]; rfl) hx)).resolve_left (Ne.symm hr)) hs'
      cases e with
      | granted req t => exact fun hx => hx.elim hfirst hrest
      | queued req => exact hrest
      | released client resource => exact fun hx => hrest hx.2
      | cancelled q resource => exact hrest

omit [DecidableEq Client] in
theorem heldBy_grants {gs : List (LockRequest Client Resource Request)} :
    HeldBy c r ((gs.map fun req => .granted req now).reverse ++ h) ↔
      HeldBy c r h ∨ ∃ w ∈ gs, w.clientId = c ∧ w.resourceId = r := by
  induction gs generalizing h with
  | nil => simp
  | cons w gs ih =>
    rw [List.map_cons, List.reverse_cons, List.append_assoc, ih]
    simp only [List.singleton_append, HeldBy, List.mem_cons, exists_eq_or_imp]
    tauto

variable [DecidableEq Request]

theorem Refines.heldBy_apply (hm : Refines m T)
    (hh : ∀ c r, HeldBy c r m.history ↔ T.Holds c r) (now : Rat)
    (cmd : LockCommand Client Resource Request) (c : Client) (r : Resource) :
    HeldBy c r (m.applyCommand now cmd).history ↔ (T.apply cmd).Holds c r := by
  have hrelease (client : Client) (r' : Resource) :
      HeldBy c r ((if (T r').isSome then [.released client r'] else []) ++ m.history) ↔
        T.Holds c r ∧ ¬ (client = c ∧ r' = r) := by
    cases hT : T r' with
    | none =>
      rw [Option.isSome_none, if_neg Bool.false_ne_true, List.nil_append, hh]
      refine (and_iff_left_of_imp fun hx he => ?_).symm
      obtain ⟨k, hk, -⟩ := hx
      obtain ⟨-, rfl⟩ := he
      cases hT.symm.trans hk
    | some k => simp [HeldBy, hh, and_comm]
  rw [hm.history_apply, heldBy_grants, Table.holds_apply]
  refine or_congr_left ?_
  cases cmd with
  | acquire req =>
    by_cases hc : Held.Admits (T req.resourceId) req.lockType <;>
      simp [Table.records, hc, HeldBy, LockCommand.Frees, hh]
  | release client r' => exact hrelease client r'
  | cancel q client r' => simp [Table.records, HeldBy, LockCommand.Frees, hh]
  | abort client r' => exact hrelease client r'

/-- Along every run of manager and checker the history tells who holds what. -/
theorem heldBy_reach {s : CheckedManager Client Resource Request}
    (hs : (checker Client Resource Request).Reachable s) :
    ∃ T, Refines s.manager T ∧ ∀ c r, HeldBy c r s.manager.history ↔ T.Holds c r := by
  refine hs.invariant (I := fun s => ∃ T, Refines s.manager T ∧
    ∀ c r, HeldBy c r s.manager.history ↔ T.Holds c r) ⟨Table.free, refines_init, fun c r => ?_⟩
    fun s a t _ hI _ ht => ?_
  · simp [checker, HeldBy, Table.Holds, Table.free]
  · obtain ⟨T, hm, hh⟩ := hI
    have hcmd (now : Rat) (cmd : LockCommand Client Resource Request) :
        ∃ T, Refines (s.manager.applyCommand now cmd) T ∧
          ∀ c r, HeldBy c r (s.manager.applyCommand now cmd).history ↔ T.Holds c r :=
      ⟨_, hm.apply now cmd, hm.heldBy_apply hh now cmd⟩
    cases a with
    | apply now cmd =>
      cases ht
      exact hcmd now cmd
    | check now order =>
      obtain ⟨-, ht⟩ := Option.ite_none_right_eq_some.mp ht
      cases ht
      exact ⟨T, hm, hh⟩
    | propose =>
      simp only [checker] at ht
      split at ht <;> cases ht
      exact ⟨T, hm, hh⟩
    | skip =>
      simp only [checker] at ht
      split at ht <;> cases ht
      exact ⟨T, hm, hh⟩
    | release now k =>
      simp only [checker] at ht
      split at ht
      · cases ht
      · rename_i x _
        cases ht
        exact hcmd now (.release x.clientId x.resourceId)

/-- What an applied release of the checker takes away was not granted since it made its list. -/
theorem SparesLater.takenAway {s t : CheckedManager Client Resource Request} {k : Nat}
    (h : SparesLater s (.release now k)) (hs : (checker Client Resource Request).Reachable s)
    (ht : (checker Client Resource Request).step s (.release now k) = some t) :
    ∃ x ∈ s.proposed[k]?, ∀ c r, s.manager.Holds c r → ¬ t.manager.Holds c r →
      ∀ e ∈ s.since x, ¬ e.Grants c r := by
  obtain ⟨T, hm, -⟩ := heldBy_reach hs
  simp only [checker] at ht
  split at ht
  · cases ht
  · rename_i x hx
    cases ht
    refine ⟨x, hx, fun c r hheld hlost => ?_⟩
    have hfrees : LockCommand.Frees c r
        (.release x.clientId x.resourceId : LockCommand _ _ Request) := by
      by_contra hno
      refine hlost ((hm.apply now _).holds_iff.mpr (Table.holds_apply.mpr (.inl ⟨?_, hno⟩)))
      exact hm.holds_iff.mp hheld
    obtain ⟨rfl, rfl⟩ := hfrees
    exact h x hx hheld

/-- The checker ends nothing but what it found expired exactly if, at each of its releases, all
that the client was granted since has been released before. -/
theorem sparesLater_along_iff (as : List (CheckerAction Client Resource Request)) :
    (checker Client Resource Request).Along (fun s a _ => SparesLater s a)
        (checker Client Resource Request).init as ↔
      (checker Client Resource Request).Along (fun s a _ => GaveBack s a)
        (checker Client Resource Request).init as := by
  refine System.along_congr_reachable (fun s a t hs _ => ?_) .init as
  obtain ⟨T, hm, hh⟩ := heldBy_reach hs
  cases a with
  | release now k =>
    refine forall₂_congr fun x _ => ?_
    have hsplit : s.since x ++ s.manager.history.drop (s.manager.history.length - x.taken) =
        s.manager.history := List.take_append_drop _ _
    have hholds : s.manager.Holds x.clientId x.resourceId ↔
        HeldBy x.clientId x.resourceId (s.since x ++ s.manager.history.drop
          (s.manager.history.length - x.taken)) := by
      rw [hsplit, hm.holds_iff, hh]
    rw [hholds]
    constructor
    · intro hp newer e older he hx
      by_contra hn
      refine hp ?_ e (by simp [he]) hx
      rw [he, List.append_assoc]
      refine heldBy_append hn ?_
      cases e with
      | granted req t => exact .inl hx
      | queued req => cases hx
      | released client resource => cases hx
      | cancelled q resource => cases hx
    · exact fun hg hheld e he hx => not_heldBy_append hg ⟨e, he, hx⟩ hheld
  | _ => exact Iff.rfl

/-- Client 0 releases its expired lock and takes it again, before the checker gets to release
it. -/
def tookAgain : List (CheckerAction Nat Nat Nat) :=
  [.apply 0 (.acquire { requestId := 0, clientId := 0, resourceId := 0, lockType := .exclusive }),
   .check 31 fun s => s.sort (· ≤ ·), .propose, .apply 32 (.release 0 0),
   .apply 33 (.acquire { requestId := 1, clientId := 0, resourceId := 0, lockType := .exclusive })]

theorem not_sparesLater_tookAgain : ∃ s, (checker Nat Nat Nat).run (checker Nat Nat Nat).init
    tookAgain = some s ∧ ¬ SparesLater s (.release 34 0) ∧
    ∃ t, (checker Nat Nat Nat).step s (.release 34 0) = some t ∧ ¬ t.manager.Holds 0 0 := by
  have hrun : ((checker Nat Nat Nat).run (checker Nat Nat Nat).init tookAgain).any (fun s =>
      (∃ x ∈ s.proposed[0]?, s.manager.Holds x.clientId x.resourceId ∧
        ∃ e ∈ s.since x, e.Grants x.clientId x.resourceId) ∧
      ((checker Nat Nat Nat).step s (.release 34 0)).any fun t => ¬ t.manager.Holds 0 0) = true := by
    decide +kernel
  obtain ⟨s, hs, hx⟩ := (Option.any_eq_true ..).mp hrun
  obtain ⟨hlater, ht⟩ := of_decide_eq_true hx
  obtain ⟨x, hk, hholds, e, he, hg⟩ := hlater
  obtain ⟨t, ht, hnot⟩ := (Option.any_eq_true ..).mp ht
  exact ⟨s, hs, fun hp => hp x hk hholds e he hg, t, ht, of_decide_eq_true hnot⟩

end DistSync.Locking
