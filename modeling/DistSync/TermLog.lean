import Mathlib.Data.List.Basic
import Mathlib.Data.List.Infix
import Mathlib.Data.List.TakeDrop
import Mathlib.Order.Basic

/-! Logs of entries that carry a term. `Traced L l` says that every entry of `l`
closes a prefix of the log `L t` kept for its term `t`; all such logs match, and
splicing one into another either changes nothing or installs it whole. -/
namespace DistSync.TermLog
variable {ε : Type} {term : ε → Nat} {L L' : Nat → List ε} {f l p : List ε}

def lastTerm (term : ε → Nat) (l : List ε) : Nat := (l.getLast?.map term).getD 0

/-- Keep the entries that agree, cut at the first conflict, append the rest. -/
def splice (term : ε → Nat) (log : List ε) (idx : Nat) : List ε → List ε
  | [] => log
  | e :: es =>
    match log[idx]? with
    | some old =>
      if term old ≠ term e then splice term (log.take idx ++ [e]) (idx + 1) es
      else splice term log (idx + 1) es
    | none => splice term (log ++ [e]) (idx + 1) es

/-- Where `splice` cuts the log, if it cuts it. -/
def cutPoint (term : ε → Nat) (log : List ε) (idx : Nat) : List ε → Option Nat
  | [] => none
  | e :: es =>
    match log[idx]? with
    | some old => if term old ≠ term e then some idx else cutPoint term log (idx + 1) es
    | none => none

theorem take_prefix_splice (es : List ε) (log : List ε) (idx n : Nat) (hn : n ≤ idx) :
    log.take n <+: splice term log idx es := by
  induction es generalizing log idx with
  | nil => exact List.take_prefix n log
  | cons e es ih =>
    simp only [splice]
    cases ho : log[idx]? with
    | none => exact ((List.prefix_append log [e]).take n).trans (ih _ _ (by omega))
    | some old =>
      dsimp only
      split
      · have hi : idx < log.length := (List.getElem?_eq_some_iff.mp ho).1
        have ht := ih (log.take idx ++ [e]) (idx + 1) (by omega)
        rwa [List.take_append_of_le_length (by simp; omega), List.take_take,
          Nat.min_eq_left hn] at ht
      · exact ih log _ (by omega)

/-- Every entry of a spliced log comes from the log or from what was spliced in, at its place. -/
theorem getElem?_splice {es log : List ε} {idx i : Nat} {e : ε} (hl : idx ≤ log.length)
    (h : (splice term log idx es)[i]? = some e) :
    log[i]? = some e ∨ ∃ j, es[j]? = some e ∧ i = idx + j := by
  induction es generalizing log idx with
  | nil => exact .inl h
  | cons d es ih =>
    have hshift {log' : List ε} (hl' : idx + 1 ≤ log'.length)
        (h : (splice term log' (idx + 1) es)[i]? = some e)
        (hlog : log'[i]? = some e → log[i]? = some e ∨ d = e ∧ i = idx) :
        log[i]? = some e ∨ ∃ j, (d :: es)[j]? = some e ∧ i = idx + j := by
      cases ih hl' h with
      | inl h =>
        cases hlog h with
        | inl h => exact .inl h
        | inr h => exact .inr ⟨0, by simp [h.1], h.2⟩
      | inr h =>
        obtain ⟨j, hj, hi⟩ := h
        exact .inr ⟨j + 1, by simpa using hj, by omega⟩
    have happend {l : List ε} (hlen : l.length = idx) (hl : l <+: log)
        (h : (l ++ [d])[i]? = some e) : log[i]? = some e ∨ d = e ∧ i = idx := by
      rw [List.getElem?_append] at h
      split at h
      · rename_i hi
        rw [← h, List.getElem?_eq_getElem hi, hl.getElem hi]
        exact .inl (List.getElem?_eq_getElem _)
      · obtain ⟨hi, he⟩ := List.getElem?_eq_some_iff.mp h
        rw [List.length_singleton] at hi
        exact .inr ⟨by simpa using he, by omega⟩
    simp only [splice] at h
    cases ho : log[idx]? with
    | none =>
      rw [ho] at h
      have hlen : log.length = idx := by
        have := List.getElem?_eq_none_iff.mp ho
        omega
      exact hshift (by simp [hlen]) h (happend hlen List.prefix_rfl)
    | some old =>
      rw [ho] at h
      have hlt := (List.getElem?_eq_some_iff.mp ho).1
      dsimp only at h
      split at h
      · exact hshift (by simp; omega) h (happend (by simp; omega) (List.take_prefix _ _))
      · exact hshift hlt h .inl

theorem prefix_splice_of_cutPoint_none {es log : List ε} {idx : Nat}
    (h : cutPoint term log idx es = none) : log <+: splice term log idx es := by
  induction es generalizing idx with
  | nil => exact List.prefix_rfl
  | cons e es ih =>
    simp only [cutPoint] at h
    simp only [splice]
    cases ho : log[idx]? with
    | none =>
      have hl : log.length ≤ idx := List.getElem?_eq_none_iff.mp ho
      have ht : (log ++ [e]).take (idx + 1) <+: splice term (log ++ [e]) (idx + 1) es :=
        take_prefix_splice es _ _ _ le_rfl
      rw [List.take_of_length_le (by simp; omega)] at ht
      exact (List.prefix_append log [e]).trans ht
    | some old =>
      simp only [ho] at h
      split at h
      · cases h
      · rename_i he
        simpa only [if_neg he] using ih h

theorem take_prefix_splice_of_cutPoint {es log : List ε} {idx j : Nat}
    (h : cutPoint term log idx es = some j) : log.take j <+: splice term log idx es := by
  induction es generalizing idx with
  | nil => cases h
  | cons e es ih =>
    simp only [cutPoint] at h
    cases ho : log[idx]? with
    | none => simp [ho] at h
    | some old =>
      simp only [ho] at h
      split at h
      · cases h
        exact take_prefix_splice (e :: es) log j j le_rfl
      · rename_i he
        simpa only [splice, ho, if_neg he] using ih h

/-- Equal terms at one position force equal logs up to it. -/
def Matching (term : ε → Nat) (f l : List ε) : Prop :=
  ∀ i a b, f[i]? = some a → l[i]? = some b → term a = term b → f.take (i + 1) = l.take (i + 1)

theorem matching_take (l : List ε) (n : Nat) : Matching term (l.take n) l := by
  intro i a b ha hb _
  have hi : i < (l.take n).length := (List.getElem?_eq_some_iff.mp ha).1
  rw [List.take_take, Nat.min_eq_left (by simp at hi; omega)]

theorem splice_eq (n : Nat) (f : List ε) (idx : Nat) (hn : l.length = idx + n)
    (hf : idx ≤ f.length) (ha : f.take idx = l.take idx) (hm : Matching term f l) :
    l <+: f ∧ splice term f idx (l.drop idx) = f ∨
      ¬ l <+: f ∧ splice term f idx (l.drop idx) = l := by
  induction n generalizing f idx with
  | zero =>
    have hl : l.take idx = l := List.take_of_length_le (by omega)
    have hp : l <+: f := by
      rw [← hl, ← ha]
      exact List.take_prefix idx f
    rw [List.drop_of_length_le (by omega), splice]
    exact .inl ⟨hp, rfl⟩
  | succ n ih =>
    have hi : idx < l.length := by omega
    have hnext : l.take idx ++ [l[idx]] = l.take (idx + 1) := List.take_append_getElem hi
    have hrest : splice term (l.take (idx + 1)) (idx + 1) (l.drop (idx + 1)) = l := by
      rcases ih (l.take (idx + 1)) (idx + 1) (by omega) (by simp; omega)
        (by rw [List.take_take, Nat.min_self]) (matching_take l _) with ⟨hp, he⟩ | ⟨-, he⟩
      · exact he.trans (hp.eq_of_length_le (List.length_take_le' _ _)).symm
      · exact he
    rw [List.drop_eq_getElem_cons hi, splice]
    cases ho : f[idx]? with
    | none =>
      have hlen : f.length = idx := le_antisymm (List.getElem?_eq_none_iff.mp ho) hf
      have hfl : f = l.take idx := by rw [← ha, List.take_of_length_le (by omega)]
      refine .inr ⟨fun h => by have := h.length_le; omega, ?_⟩
      simp only [hfl, hnext, hrest]
    | some old =>
      obtain ⟨hlt, hold⟩ := List.getElem?_eq_some_iff.mp ho
      dsimp only
      split
      · rename_i hne
        have hp : ¬ l <+: f := by
          intro h
          have he := h.getElem hi
          rw [hold] at he
          exact hne (by rw [he])
        rw [ha, hnext, hrest]
        exact .inr ⟨hp, rfl⟩
      · rename_i heq
        have heq : term old = term l[idx] := not_not.mp heq
        exact ih f (idx + 1) (by omega) (by omega)
          (hm idx old l[idx] ho (List.getElem?_eq_getElem hi) heq) hm

def Traced (term : ε → Nat) (L : Nat → List ε) (l : List ε) : Prop :=
  ∀ i e, l[i]? = some e → l.take (i + 1) <+: L (term e)

theorem Traced.nil : Traced term L [] := by
  intro i e h
  simp at h

theorem Traced.ne_nil (h : Traced term L l) {e : ε} (he : e ∈ l) : L (term e) ≠ [] := by
  obtain ⟨i, hi⟩ := List.mem_iff_getElem?.mp he
  have hlt : i < l.length := (List.getElem?_eq_some_iff.mp hi).1
  intro hn
  have hlen := (h i e hi).length_le
  rw [hn, List.length_nil, List.length_take] at hlen
  omega

theorem Traced.pairwise {r : ε → ε → Prop} (h : Traced term L l) (hL : ∀ t, (L t).Pairwise r) :
    l.Pairwise r := by
  cases List.eq_nil_or_concat l with
  | inl hc =>
    subst hc
    exact .nil
  | inr hc =>
    obtain ⟨l', e, rfl⟩ := hc
    have hp := h l'.length e (by simp)
    rw [List.take_of_length_le (by simp)] at hp
    exact (hL _).sublist hp.sublist

theorem Traced.mono (h : Traced term L l) (hL : ∀ t, L t <+: L' t) : Traced term L' l :=
  fun i e he => (h i e he).trans (hL _)

theorem Traced.of_isPrefix (h : Traced term L l) (hp : p <+: l) : Traced term L p := by
  intro i e he
  obtain ⟨hi, hpe⟩ := List.getElem?_eq_some_iff.mp he
  have hl : i < l.length := lt_of_lt_of_le hi hp.length_le
  have hle : l[i]? = some e := by rw [List.getElem?_eq_getElem hl, ← hp.getElem hi, hpe]
  exact (hp.take (i + 1)).trans (h i e hle)

theorem Traced.append {e : ε} (h : Traced term L l) (he : L (term e) = l ++ [e]) :
    Traced term L (l ++ [e]) := by
  intro i a ha
  cases Nat.lt_or_ge i l.length with
  | inl hi =>
    rw [List.getElem?_append_left hi] at ha
    rw [List.take_append_of_le_length (by omega)]
    exact h i a ha
  | inr hi =>
    have hlt : i < (l ++ [e]).length := (List.getElem?_eq_some_iff.mp ha).1
    have hil : i = l.length := by simp at hlt; omega
    subst hil
    have hae : a = e := by simpa using ha.symm
    subst hae
    rw [List.take_of_length_le (by simp), he]

theorem Traced.matching (hf : Traced term L f) (hl : Traced term L l) : Matching term f l := by
  intro i a b ha hb hab
  have hfp := hf i a ha
  have hlp := hl i b hb
  rw [hab] at hfp
  have hfi : i < f.length := (List.getElem?_eq_some_iff.mp ha).1
  have hli : i < l.length := (List.getElem?_eq_some_iff.mp hb).1
  exact (List.prefix_of_prefix_length_le hfp hlp (by simp; omega)).eq_of_length (by simp; omega)

theorem exists_lastTerm (term : ε → Nat) (hne : l ≠ []) : ∃ e ∈ l, term e = lastTerm term l := by
  refine ⟨l.getLast hne, List.getLast_mem hne, ?_⟩
  rw [lastTerm, List.getLast?_eq_getLast_of_ne_nil hne, Option.map_some, Option.getD_some]

theorem le_lastTerm (hsort : l.Pairwise fun a b => term a ≤ term b) {j : Nat} {e : ε}
    (he : l[j]? = some e) : term e ≤ lastTerm term l := by
  obtain ⟨hj, rfl⟩ := List.getElem?_eq_some_iff.mp he
  have hne : l ≠ [] := List.ne_nil_of_length_pos (by omega)
  rw [lastTerm, List.getLast?_eq_getLast_of_ne_nil hne, Option.map_some, Option.getD_some,
    List.getLast_eq_getElem]
  cases Nat.lt_or_ge j (l.length - 1) with
  | inl hlt => exact List.pairwise_iff_getElem.mp hsort _ _ _ _ hlt
  | inr hge =>
    have hjl : j = l.length - 1 := by omega
    simp only [hjl, le_refl]

theorem Traced.prefix_lastTerm (h : Traced term L l) (hne : l ≠ []) :
    l <+: L (lastTerm term l) := by
  cases List.eq_nil_or_concat l with
  | inl hc =>
    subst hc
    exact absurd rfl hne
  | inr hc =>
    obtain ⟨l', e, rfl⟩ := hc
    have hp := h l'.length e (by simp)
    rw [List.take_of_length_le (by simp)] at hp
    simpa [lastTerm] using hp

/-- Ordered terms, none of them 0 and none beyond `bound`. -/
structure Ascending (term : ε → Nat) (bound : Nat) (l : List ε) : Prop where
  sorted : l.Pairwise fun a b => term a ≤ term b
  pos : ∀ e ∈ l, 1 ≤ term e
  le : ∀ e ∈ l, term e ≤ bound

section Ascending
variable {b b' idx : Nat} {log es : List ε} {e : ε}

theorem Ascending.nil : Ascending term b [] where
  sorted := .nil
  pos := List.forall_mem_nil _
  le := List.forall_mem_nil _

theorem Ascending.mono (h : Ascending term b l) (hb : b ≤ b') : Ascending term b' l :=
  ⟨h.sorted, h.pos, fun e he => (h.le e he).trans hb⟩

theorem Ascending.sublist (h : Ascending term b l) (hp : p.Sublist l) : Ascending term b p where
  sorted := h.sorted.sublist hp
  pos e he := h.pos e (hp.subset he)
  le e he := h.le e (hp.subset he)

theorem Ascending.append (hp : Ascending term b p) (hl : Ascending term b l)
    (hjoin : ∀ a ∈ p, ∀ e ∈ l, term a ≤ term e) : Ascending term b (p ++ l) where
  sorted := List.pairwise_append.mpr ⟨hp.sorted, hl.sorted, hjoin⟩
  pos e he := (List.mem_append.mp he).elim (hp.pos e) (hl.pos e)
  le e he := (List.mem_append.mp he).elim (hp.le e) (hl.le e)

theorem Ascending.le_of_mem_take (h : Ascending term b l) {k : Nat} {a c : ε} (hc : l[k]? = some c)
    (ha : a ∈ l.take (k + 1)) : term a ≤ term c := by
  rw [List.take_add_one, hc, Option.toList_some] at ha
  obtain ⟨hk, rfl⟩ := List.getElem?_eq_some_iff.mp hc
  have hsort := h.sorted
  rw [← List.take_append_drop k l, List.drop_eq_getElem_cons hk, List.pairwise_append] at hsort
  cases List.mem_append.mp ha with
  | inl ha => exact hsort.2.2 a ha _ List.mem_cons_self
  | inr ha => rw [List.mem_singleton.mp ha]

theorem Ascending.le_of_mem_drop (h : Ascending term b l) {k : Nat} {a c : ε} (hc : l[k]? = some c)
    (ha : a ∈ l.drop (k + 1)) : term c ≤ term a := by
  obtain ⟨hk, rfl⟩ := List.getElem?_eq_some_iff.mp hc
  have hsort := h.sorted.drop (i := k)
  rw [List.drop_eq_getElem_cons hk] at hsort
  exact (List.pairwise_cons.mp hsort).1 a ha

/-- Splicing entries behind such that are not younger keeps the order, also where the two logs
share no history. -/
theorem Ascending.splice (hlog : Ascending term b log) (hes : Ascending term b es)
    (hidx : idx ≤ log.length) (hjoin : ∀ a ∈ log.take idx, ∀ e ∈ es, term a ≤ term e) :
    Ascending term b (splice term log idx es) := by
  induction es generalizing log idx with
  | nil => exact hlog
  | cons e es ih =>
    have hrest := hes.sublist (List.sublist_cons_self e es)
    have hfirst := (List.pairwise_cons.mp hes.sorted).1
    -- the log cut at `idx` with the first entry behind it
    have hcut : Ascending term b (log.take idx ++ [e]) :=
      (hlog.sublist (List.take_sublist _ _)).append (hes.sublist (by simp)) fun a ha e' he' => by
        rw [List.mem_singleton.mp he']
        exact hjoin a ha e List.mem_cons_self
    have hlen : (log.take idx ++ [e]).length = idx + 1 := by simp; omega
    have hnext : Ascending term b (TermLog.splice term (log.take idx ++ [e]) (idx + 1) es) := by
      refine ih hcut hrest hlen.ge fun a ha e' he' => ?_
      cases List.mem_append.mp (List.mem_of_mem_take ha) with
      | inl ha => exact hjoin a ha e' (List.mem_cons_of_mem e he')
      | inr ha =>
        rw [List.mem_singleton.mp ha]
        exact hfirst e' he'
    simp only [TermLog.splice]
    cases ho : log[idx]? with
    | none =>
      rwa [List.take_of_length_le (List.getElem?_eq_none_iff.mp ho)] at hnext
    | some old =>
      dsimp only
      split
      · exact hnext
      · rename_i hsame
        have hsame : term old = term e := not_not.mp hsame
        have hi := (List.getElem?_eq_some_iff.mp ho).1
        refine ih hlog hrest hi fun a ha e' he' => ?_
        rw [List.take_add_one, ho, Option.toList_some] at ha
        cases List.mem_append.mp ha with
        | inl ha => exact hjoin a ha e' (List.mem_cons_of_mem e he')
        | inr ha =>
          rw [List.mem_singleton.mp ha, hsame]
          exact hfirst e' he'

end Ascending

end DistSync.TermLog
