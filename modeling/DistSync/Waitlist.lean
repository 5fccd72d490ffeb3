import Mathlib.Data.List.Basic
import Mathlib.Data.List.Nodup

/-! Waiting lists, told by their history: who joined, was served or left, the newest visit
first. Where each key comes once and whoever is served comes first of those who wait, or is
served as it comes, nobody is served twice or before one who joined earlier and stayed. -/
namespace DistSync

inductive Visit (κ : Type) where
  | join (k : κ)
  | serve (k : κ)
  | leave (k : κ)
deriving DecidableEq

namespace Visit
variable {κ : Type} {h : List (Visit κ)} {a b k : κ}

def New (h : List (Visit κ)) (k : κ) : Prop := join k ∉ h ∧ serve k ∉ h

def joined (h : List (Visit κ)) : List κ :=
  h.filterMap fun
    | join k => some k
    | _ => none

def served (h : List (Visit κ)) : List κ :=
  h.filterMap fun
    | serve k => some k
    | _ => none

theorem mem_joined : k ∈ joined h ↔ join k ∈ h := by
  simp only [joined, List.mem_filterMap]
  constructor
  · rintro ⟨v, hv, he⟩
    cases v <;> cases he
    exact hv
  · exact fun hk => ⟨_, hk, rfl⟩

theorem mem_served : k ∈ served h ↔ serve k ∈ h := by
  simp only [served, List.mem_filterMap]
  constructor
  · rintro ⟨v, hv, he⟩
    cases v <;> cases he
    exact hv
  · exact fun hk => ⟨_, hk, rfl⟩

theorem pair_sublist_cons {α : Type} {x y z : α} {l : List α} :
    [x, y].Sublist (z :: l) ↔ [x, y].Sublist l ∨ x = z ∧ y ∈ l := by
  rw [List.sublist_cons_iff]
  refine or_congr_right ?_
  constructor
  · rintro ⟨r, he, hr⟩
    cases he
    exact ⟨rfl, List.singleton_sublist.mp hr⟩
  · rintro ⟨rfl, hy⟩
    exact ⟨[y], rfl, List.singleton_sublist.mpr hy⟩

theorem mem_of_pair {α : Type} {x y : α} {l : List α} (h : [x, y].Sublist l) : x ∈ l ∧ y ∈ l :=
  ⟨h.subset List.mem_cons_self, h.subset (List.mem_cons_of_mem x List.mem_cons_self)⟩

theorem not_sublist_swap {α : Type} {x y : α} {l : List α} (hn : l.Nodup)
    (h : [x, y].Sublist l) : ¬ [y, x].Sublist l := by
  induction l with
  | nil => cases h
  | cons z l ih =>
    obtain ⟨hz, hn⟩ := List.nodup_cons.mp hn
    intro h'
    cases pair_sublist_cons.mp h with
    | inl h =>
      cases pair_sublist_cons.mp h' with
      | inl h' => exact ih hn h h'
      | inr h' => exact hz (h'.1 ▸ (mem_of_pair h).2)
    | inr h =>
      cases pair_sublist_cons.mp h' with
      | inl h' => exact hz (h.1 ▸ (mem_of_pair h').2)
      | inr h' => exact hz (h.1 ▸ h'.2)

theorem joined_sublist (hs : [Visit.join b, Visit.join a].Sublist h) :
    [b, a].Sublist (joined h) := by
  have hj := hs.filterMap fun
    | Visit.join k => some k
    | _ => none
  exact hj

theorem nodup_map_of_filter {α β γ : Type} [DecidableEq γ] {f : α → β} {g : α → γ} {l : List α}
    (hn : ∀ c, ((l.filter fun a => g a = c).map f).Nodup)
    (hg : ∀ a ∈ l, ∀ b ∈ l, f a = f b → g a = g b) : (l.map f).Nodup := by
  induction l with
  | nil => exact List.nodup_nil
  | cons a l ih =>
    have hpart : ∀ c, ((l.filter fun b => g b = c).map f).Nodup := fun c =>
      (hn c).sublist (((List.sublist_cons_self a l).filter _).map f)
    refine List.nodup_cons.mpr ⟨fun hm => ?_, ih hpart fun b hb c hc =>
      hg b (List.mem_cons_of_mem a hb) c (List.mem_cons_of_mem a hc)⟩
    obtain ⟨b, hb, he⟩ := List.mem_map.mp hm
    have hab := hg b (List.mem_cons_of_mem a hb) a List.mem_cons_self he
    have hna := hn (g a)
    rw [List.filter_cons_of_pos (by simp), List.map_cons, List.nodup_cons] at hna
    exact hna.1 (List.mem_map.mpr ⟨b, List.mem_filter.mpr ⟨hb, by simpa using hab⟩, he⟩)

variable [DecidableEq κ]

/-- Who waits, the first to be served coming first. -/
def waiting : List (Visit κ) → List κ
  | [] => []
  | join k :: h => waiting h ++ [k]
  | serve k :: h => (waiting h).filter fun j => j ≠ k
  | leave k :: h => (waiting h).filter fun j => j ≠ k

inductive Orderly : List (Visit κ) → Prop
  | nil : Orderly []
  | join {k : κ} {h : List (Visit κ)} (hk : New h k) (hh : Orderly h) : Orderly (join k :: h)
  | serveFirst {k : κ} {ks : List κ} {h : List (Visit κ)} (hw : waiting h = k :: ks)
      (hh : Orderly h) : Orderly (serve k :: h)
  | serveNew {k : κ} {h : List (Visit κ)} (hk : New h k) (hh : Orderly h) : Orderly (serve k :: h)
  | leave {k : κ} {h : List (Visit κ)} (hh : Orderly h) : Orderly (leave k :: h)

namespace Orderly

theorem nodup_joined (hh : Orderly h) : (joined h).Nodup := by
  induction hh with
  | nil => exact List.nodup_nil
  | join hk _ ih => exact List.nodup_cons.mpr ⟨fun hm => hk.1 (mem_joined.mp hm), ih⟩
  | serveFirst _ _ ih => exact ih
  | serveNew _ _ ih => exact ih
  | leave _ ih => exact ih

/-- Those who wait are those who joined and have neither been served nor left since. -/
theorem mem_waiting (hh : Orderly h) : k ∈ waiting h ↔
    Visit.join k ∈ h ∧ serve k ∉ h ∧ ¬ [Visit.leave k, Visit.join k].Sublist h := by
  have hgone {j : κ} {h : List (Visit κ)} (ih : k ∈ waiting h ↔ Visit.join k ∈ h ∧ serve k ∉ h ∧
      ¬ [Visit.leave k, Visit.join k].Sublist h) : k ∈ waiting (serve j :: h) ↔
        Visit.join k ∈ serve j :: h ∧ serve k ∉ serve j :: h ∧
          ¬ [Visit.leave k, Visit.join k].Sublist (serve j :: h) := by
    simp only [waiting, List.mem_filter, ih, decide_eq_true_eq, List.mem_cons, reduceCtorEq,
      false_or, serve.injEq, not_or, pair_sublist_cons, false_and, or_false]
    tauto
  induction hh with
  | nil => simp [waiting]
  | join hk _ ih =>
    rename_i j h _
    simp only [waiting, List.mem_append, ih, List.mem_cons, join.injEq, reduceCtorEq, false_or,
      pair_sublist_cons, false_and, or_false]
    by_cases hkj : k = j
    · subst hkj
      have hleft : ¬ [Visit.leave k, Visit.join k].Sublist h := fun hs =>
        hk.1 (mem_of_pair hs).2
      simp [hk.2, hleft]
    · simp [hkj]
  | serveFirst _ _ ih => exact hgone ih
  | serveNew _ _ ih => exact hgone ih
  | leave _ ih =>
    simp only [waiting, List.mem_filter, ih, decide_eq_true_eq, List.mem_cons, reduceCtorEq,
      false_or, leave.injEq, pair_sublist_cons]
    tauto

theorem not_mem_waiting (hh : Orderly h) (hk : New h k) : k ∉ waiting h :=
  fun hm => hk.1 (hh.mem_waiting.mp hm).1

theorem nodup_served (hh : Orderly h) : (served h).Nodup := by
  induction hh with
  | nil => exact List.nodup_nil
  | join _ _ ih => exact ih
  | serveFirst hw hh ih =>
    refine List.nodup_cons.mpr ⟨fun hm => ?_, ih⟩
    exact (hh.mem_waiting.mp (hw ▸ List.mem_cons_self)).2.1 (mem_served.mp hm)
  | serveNew hk _ ih => exact List.nodup_cons.mpr ⟨fun hm => hk.2 (mem_served.mp hm), ih⟩
  | leave _ ih => exact ih

theorem waiting_sublist (hh : Orderly h) : (waiting h).reverse.Sublist (joined h) := by
  have hfilter (j : κ) {h : List (Visit κ)} (ih : (waiting h).reverse.Sublist (joined h)) :
      ((waiting h).filter fun i => i ≠ j).reverse.Sublist (joined h) :=
    List.filter_sublist.reverse.trans ih
  induction hh with
  | nil => exact List.Sublist.refl _
  | join _ _ ih =>
    rw [waiting, List.reverse_append]
    exact ih.cons_cons _
  | serveFirst _ _ ih => exact hfilter _ ih
  | serveNew _ _ ih => exact hfilter _ ih
  | leave _ ih => exact hfilter _ ih

theorem nodup_waiting (hh : Orderly h) : (waiting h).Nodup :=
  List.nodup_reverse.mp (hh.nodup_joined.sublist hh.waiting_sublist)

theorem not_served_later (hh : Orderly h) (ha : a ∈ waiting h)
    (hs : [Visit.join b, Visit.join a].Sublist h) : serve b ∉ h := by
  induction hh with
  | nil => cases ha
  | join hk _ ih =>
    rename_i k h _
    have hserve : serve b ∈ Visit.join k :: h ↔ serve b ∈ h := by simp
    rw [hserve]
    cases pair_sublist_cons.mp hs with
    | inl hs =>
      have hak : a ≠ k := fun he => hk.1 (he ▸ (mem_of_pair hs).2)
      exact ih ((List.mem_append.mp ha).resolve_right (by simpa using hak)) hs
    | inr hs =>
      cases hs.1
      exact hk.2
  | serveFirst hw hh ih =>
    rename_i k ks h
    have hjoin := (pair_sublist_cons.mp hs).resolve_right (by simp)
    obtain ⟨haw, hak⟩ := List.mem_filter.mp ha
    have hbk : b ≠ k := by
      rintro rfl
      have hak := (List.mem_cons.mp (hw ▸ haw)).resolve_left (by simpa using hak)
      have hfirst : [b, a].Sublist (waiting h) := by
        rw [hw]
        exact (List.singleton_sublist.mpr hak).cons_cons b
      exact not_sublist_swap hh.nodup_joined (joined_sublist hjoin)
        (hfirst.reverse.trans hh.waiting_sublist)
    simpa [hbk] using ih haw hjoin
  | serveNew hk _ ih =>
    rename_i k h _
    have hjoin := (pair_sublist_cons.mp hs).resolve_right (by simp)
    have hbk : b ≠ k := fun he => hk.1 (he ▸ (mem_of_pair hjoin).1)
    simpa [hbk] using ih (List.mem_filter.mp ha).1 hjoin
  | leave _ ih =>
    have hjoin := (pair_sublist_cons.mp hs).resolve_right (by simp)
    simpa using ih (List.mem_filter.mp ha).1 hjoin

theorem served_in_order (hh : Orderly h) (hs : [Visit.join b, Visit.join a].Sublist h)
    (hstay : ¬ [Visit.leave a, Visit.join a].Sublist h) : ¬ [serve a, serve b].Sublist h := by
  have hearlier {v : Visit κ} {h : List (Visit κ)}
      (hstay : ¬ [Visit.leave a, Visit.join a].Sublist (v :: h)) :
      ¬ [Visit.leave a, Visit.join a].Sublist h := fun hl => hstay (hl.cons v)
  intro hserved
  induction hh with
  | nil => cases hserved
  | join hk _ ih =>
    have hserved' := (pair_sublist_cons.mp hserved).resolve_right (by simp)
    cases pair_sublist_cons.mp hs with
    | inl hs => exact ih hs (hearlier hstay) hserved'
    | inr hs =>
      cases hs.1
      exact hk.2 (mem_of_pair hserved').2
  | serveFirst hw hh ih =>
    have hjoin := (pair_sublist_cons.mp hs).resolve_right (by simp)
    cases pair_sublist_cons.mp hserved with
    | inl hserved => exact ih hjoin (hearlier hstay) hserved
    | inr hserved =>
      cases hserved.1
      exact hh.not_served_later (hw ▸ List.mem_cons_self) hjoin hserved.2
  | serveNew hk _ ih =>
    have hjoin := (pair_sublist_cons.mp hs).resolve_right (by simp)
    cases pair_sublist_cons.mp hserved with
    | inl hserved => exact ih hjoin (hearlier hstay) hserved
    | inr hserved =>
      cases hserved.1
      exact hk.1 (mem_of_pair hjoin).2
  | leave _ ih =>
    have hjoin := (pair_sublist_cons.mp hs).resolve_right (by simp)
    have hserved' := (pair_sublist_cons.mp hserved).resolve_right (by simp)
    exact ih hjoin (hearlier hstay) hserved'

theorem serveAll (hh : Orderly h) {ks rest : List κ} (hw : waiting h = ks ++ rest) :
    Orderly ((ks.map serve).reverse ++ h) ∧ waiting ((ks.map serve).reverse ++ h) = rest := by
  induction ks generalizing h with
  | nil => exact ⟨hh, hw⟩
  | cons k ks ih =>
    have hn := hh.nodup_waiting
    rw [hw] at hn
    have hrest : waiting (serve k :: h) = ks ++ rest := by
      rw [waiting, hw]
      have hall : ∀ j ∈ ks ++ rest, decide (j ≠ k) = true := fun j hj =>
        decide_eq_true fun he => (List.nodup_cons.mp hn).1 (he ▸ hj)
      rw [List.cons_append, List.filter_cons_of_neg (by simp), List.filter_eq_self.mpr hall]
    have hnext := ih (hh.serveFirst hw) hrest
    simpa using hnext

end Orderly
end Visit
end DistSync
