import Mathlib.Data.Set.Insert

/-! Copies of one datum: who has one, who owns it, and to whom one is under way. As long as
ownership is only taken where no copy is left elsewhere, an owner has the only one. -/
namespace DistSync

structure Copies (α : Type) where
  owners : Set α
  holders : Set α
  incoming : Set α
  owners_subset : owners ⊆ holders

namespace Copies
variable {α : Type} {c c' : Copies α}

def Alone (c : Copies α) (n : α) : Prop := c.holders ⊆ {n} ∧ c.incoming ⊆ {n}

def Sole (c : Copies α) : Prop := ∀ n ∈ c.owners, c.Alone n

instance : LE (Copies α) where
  le c' c := c'.owners ⊆ c.owners ∧ c'.holders ⊆ c.holders ∧ c'.incoming ⊆ c.incoming

/-- What may happen to the copies: they get fewer, somebody who has one and does not own it
any more sends one, one arrives, and somebody takes ownership. -/
inductive Move (c c' : Copies α) : Prop
  | shrink (hle : c' ≤ c)
  | send (q : α) (hq : q ∈ c.holders) (howners : c'.owners ⊆ c.owners \ {q})
  | arrive (m : α) (hm : m ∈ c.incoming) (howners : c'.owners ⊆ c.owners)
      (hholders : c'.holders ⊆ insert m c.holders) (hincoming : c'.incoming ⊆ c.incoming)
  | take (n : α) (halone : c.Alone n) (howners : c'.owners ⊆ insert n c.owners)
      (hholders : c'.holders ⊆ insert n c.holders) (hincoming : c'.incoming ⊆ c.incoming)

theorem Alone.mono {n : α} (h : c.Alone n) (hholders : c'.holders ⊆ insert n c.holders)
    (hincoming : c'.incoming ⊆ c.incoming) : c'.Alone n := by
  constructor
  · intro m hm
    cases hholders hm with
    | inl hn => exact hn
    | inr hold => exact h.1 hold
  · exact hincoming.trans h.2

theorem Sole.move (h : c.Sole) (hm : c.Move c') : c'.Sole := by
  intro n hn
  cases hm with
  | shrink hle => exact (h n (hle.1 hn)).mono (hle.2.1.trans (Set.subset_insert n _)) hle.2.2
  | send q hq howners =>
    -- whoever owned the datum was the one who sends it
    have hown := howners hn
    exact absurd ((h n hown.1).1 hq).symm hown.2
  | arrive m hm howners hholders hincoming =>
    have halone := h n (howners hn)
    have hmn : m = n := halone.2 hm
    exact halone.mono (hmn ▸ hholders) hincoming
  | take m halone howners hholders hincoming =>
    have hnm : n = m := by
      cases howners hn with
      | inl hnew => exact hnew
      | inr hold => exact halone.1 (c.owners_subset hold)
    exact hnm ▸ halone.mono hholders hincoming

end Copies
end DistSync
