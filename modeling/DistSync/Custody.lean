import Mathlib.Data.List.Nodup
import Mathlib.Data.List.Perm.Basic
import Mathlib.Logic.Function.Basic

/-! Items with keys, kept in boxes. The item of a key lies in one box, once, or in no box;
moving items from box to box keeps that. The order inside a box does not matter here. -/
namespace DistSync
variable {ι κ α : Type} [DecidableEq ι] [DecidableEq κ] {key : α → κ}

def copies (key : α → κ) (k : κ) (l : List α) : Nat := l.countP fun a => key a = k

theorem copies_perm {l l' : List α} (h : l.Perm l') (k : κ) : copies key k l = copies key k l' :=
  h.countP_eq _

@[simp] theorem copies_nil (k : κ) : copies key k [] = 0 := rfl

theorem copies_cons (k : κ) (a : α) (l : List α) :
    copies key k (a :: l) = copies key k l + if key a = k then 1 else 0 := by
  simp [copies, List.countP_cons]

theorem copies_append (k : κ) (l l' : List α) :
    copies key k (l ++ l') = copies key k l + copies key k l' :=
  List.countP_append

theorem copies_map {f : α → α} {l : List α} (hf : ∀ a ∈ l, key (f a) = key a) (k : κ) :
    copies key k (l.map f) = copies key k l := by
  unfold copies
  rw [List.countP_map]
  exact List.countP_congr fun a ha => by simp [hf a ha]

theorem copies_pos {k : κ} {l : List α} : 0 < copies key k l ↔ ∃ a ∈ l, key a = k := by
  simp [copies, List.countP_pos_iff]

/-- Where keys are once the items `as` have gone each to its destination. -/
def redirect (key : α → κ) (as : List α) (dest : α → ι) (place : κ → Option ι) (k : κ) :
    Option ι :=
  match as.find? fun a => key a = k with
  | some a => some (dest a)
  | none => place k

omit [DecidableEq ι] in
theorem redirect_cases (key : α → κ) (as : List α) (dest : α → ι) (place : κ → Option ι) (k : κ) :
    (∃ a ∈ as, key a = k ∧ redirect key as dest place k = some (dest a)) ∨
      (∀ a ∈ as, key a ≠ k) ∧ redirect key as dest place k = place k := by
  unfold redirect
  cases hf : as.find? fun a => key a = k with
  | some a =>
    exact .inl ⟨a, List.mem_of_find?_eq_some hf, by simpa using List.find?_some hf, rfl⟩
  | none => exact .inr ⟨by simpa using hf, rfl⟩

theorem copies_filter {as : List α} (hn : (as.map key).Nodup) {a : α} (ha : a ∈ as)
    (p : α → Prop) [DecidablePred p] :
    copies key (key a) (as.filter p) = if p a then 1 else 0 := by
  induction as with
  | nil => cases ha
  | cons b as ih =>
    rw [List.map_cons, List.nodup_cons] at hn
    cases List.mem_cons.mp ha with
    | inl he =>
      subst he
      have hrest : copies key (key a) (as.filter p) = 0 := by
        refine Nat.eq_zero_of_not_pos fun hpos => ?_
        obtain ⟨c, hc, he⟩ := copies_pos.mp hpos
        exact hn.1 (List.mem_map.mpr ⟨c, List.mem_of_mem_filter hc, he⟩)
      by_cases hp : p a
      · rw [List.filter_cons_of_pos (by simpa using hp), copies_cons, hrest, if_pos rfl, if_pos hp]
      · rw [List.filter_cons_of_neg (by simpa using hp), hrest, if_neg hp]
    | inr ha =>
      have hne : key b ≠ key a := fun he => hn.1 (List.mem_map.mpr ⟨a, ha, he.symm⟩)
      by_cases hp : p b
      · rw [List.filter_cons_of_pos (by simpa using hp), copies_cons, ih hn.2 ha, if_neg hne,
          Nat.add_zero]
      · rw [List.filter_cons_of_neg (by simpa using hp), ih hn.2 ha]

/-- `place k` is the box of the item with key `k`, if there is one. -/
def Custody (key : α → κ) (box : ι → List α) (place : κ → Option ι) : Prop :=
  ∀ k i, copies key k (box i) = if place k = some i then 1 else 0

/-- The items `as` leave `src`, or come in from outside, each for its destination, where `f`
of it arrives. -/
structure Shipment (key : α → κ) (box box' : ι → List α) (as : List α) (src : Option ι)
    (dest : α → ι) (f : α → α) : Prop where
  nodup : (as.map key).Nodup
  key_eq : ∀ a ∈ as, key (f a) = key a
  leaves : ∀ a ∈ as, src ≠ some (dest a)
  boxes : ∀ i, ∃ rest, (box i).Perm ((if src = some i then as else []) ++ rest) ∧
    (box' i).Perm ((as.filter fun a => dest a = i).map f ++ rest)

namespace Custody
variable {box box' : ι → List α} {place : κ → Option ι} (h : Custody key box place)
  {i j : ι} {a a' : α} {k : κ}

theorem empty (hbox : ∀ i, box i = []) : Custody key box fun _ => none := by
  intro k i
  rw [hbox, copies_nil, if_neg nofun]

include h

theorem place_of_mem (ha : a ∈ box i) : place (key a) = some i := by
  have hpos : 0 < copies key (key a) (box i) := copies_pos.mpr ⟨a, ha, rfl⟩
  rw [h] at hpos
  by_contra hn
  simp [hn] at hpos

theorem exists_mem (hk : place k = some i) : ∃ a ∈ box i, key a = k := by
  refine copies_pos.mp ?_
  rw [h, if_pos hk]
  exact Nat.one_pos

theorem nodup (i : ι) : ((box i).map key).Nodup := by
  refine List.nodup_iff_count_le_one.mpr fun k => ?_
  have hcount : ((box i).map key).count k = copies key k (box i) := by
    rw [List.count_eq_countP, List.countP_map]
    exact List.countP_congr fun a _ => by simp
  rw [hcount, h]
  split <;> omega

/-- A shipment takes its items to their destinations and leaves all others where they are. -/
theorem ship {as : List α} {src : Option ι} {dest : α → ι} {f : α → α}
    (hs : Shipment key box box' as src dest f) (hsrc : ∀ a ∈ as, place (key a) = src) :
    Custody key box' (redirect key as dest place) := by
  intro k i
  obtain ⟨rest, hout, hinn⟩ := hs.boxes i
  have hk := h k i
  rw [copies_perm hout, copies_append] at hk
  have hkeep (a : α) (ha : a ∈ as.filter fun a => dest a = i) : key (f a) = key a :=
    hs.key_eq a (List.mem_of_mem_filter ha)
  rw [copies_perm hinn, copies_append, copies_map hkeep]
  cases redirect_cases key as dest place k with
  | inl hshipped =>
    obtain ⟨a, ha, rfl, hr⟩ := hshipped
    rw [copies_filter hs.nodup ha fun a => dest a = i, hr]
    rw [hsrc a ha] at hk
    have hone : copies key (key a) as = 1 := by
      simpa using copies_filter hs.nodup ha fun _ => True
    by_cases hi : src = some i
    · have hdest : dest a ≠ i := fun he => hs.leaves a ha (he ▸ hi)
      rw [if_pos hi, if_pos hi, hone] at hk
      simp only [if_neg hdest, Option.some.injEq]
      omega
    · rw [if_neg hi, if_neg hi, copies_nil] at hk
      simp only [Option.some.injEq]
      omega
  | inr hother =>
    obtain ⟨hne, hr⟩ := hother
    have hzero {l : List α} (hl : ∀ a ∈ l, a ∈ as) : copies key k l = 0 := by
      refine Nat.eq_zero_of_not_pos fun hpos => ?_
      obtain ⟨a, ha, he⟩ := copies_pos.mp hpos
      exact hne a (hl a ha) he
    rw [hzero fun a ha => List.mem_of_mem_filter ha, hr]
    have hleft : copies key k (if src = some i then as else []) = 0 := by
      split
      · exact hzero fun _ ha => ha
      · rfl
    omega

end Custody

section Shipment
variable {box box' : ι → List α} {as : List α} {src : Option ι} {dest : α → ι} {f : α → α}
  (hs : Shipment key box box' as src dest f)
include hs

omit [DecidableEq κ] in
theorem Shipment.mem_src {i : ι} (hi : src = some i) {a : α} (ha : a ∈ as) : a ∈ box i := by
  obtain ⟨rest, hout, -⟩ := hs.boxes i
  rw [if_pos hi] at hout
  exact hout.symm.subset (List.mem_append_left _ ha)

omit [DecidableEq κ] in
theorem Shipment.mem_cases {i : ι} {b : α} (hb : b ∈ box' i) :
    (∃ a ∈ as, dest a = i ∧ b = f a) ∨ b ∈ box i := by
  obtain ⟨rest, hout, hinn⟩ := hs.boxes i
  cases List.mem_append.mp (hinn.subset hb) with
  | inl hnew =>
    obtain ⟨a, ha, rfl⟩ := List.mem_map.mp hnew
    exact .inl ⟨a, List.mem_of_mem_filter ha, by simpa using List.of_mem_filter ha, rfl⟩
  | inr hold => exact .inr (hout.symm.subset (List.mem_append_right _ hold))

end Shipment
end DistSync
