import Mathlib.Data.Finset.Sort
import DistSync.Locking.WaitForGraph

/-! The cycle search is exact. Its calls are also given as a relation, in which a call that
never returns has no result, so that the bound on the depth of `dfs` is seen not to matter. -/
namespace DistSync.Locking
variable {Client : Type} [DecidableEq Client]

namespace Search

mutual

/-- `dfs(node)`, called where the shared variables are `s`, returns. -/
inductive Returns (order : Client → List Client) :
    Search Client → Client → Option (List Client) × Search Client → Prop
  | found {s s' : Search Client} {node : Client} {cycle : List Client}
      (h : LoopReturns order (s.enter node) (order node) (some cycle, s')) :
    Returns order s node (some cycle, s')
  | left {s s' : Search Client} {node : Client}
      (h : LoopReturns order (s.enter node) (order node) (none, s')) :
    Returns order s node (none, s'.leave node)

/-- The rest of the loop over a node's neighbors ends. -/
inductive LoopReturns (order : Client → List Client) :
    Search Client → List Client → Option (List Client) × Search Client → Prop
  | done {s : Search Client} : LoopReturns order s [] (none, s)
  | found {s s' : Search Client} {neighbor : Client} {rest cycle : List Client}
      (hnew : neighbor ∉ s.visited) (h : Returns order s neighbor (some cycle, s')) :
    LoopReturns order s (neighbor :: rest) (some cycle, s')
  | next {s s' : Search Client} {neighbor : Client} {rest : List Client}
      {r : Option (List Client) × Search Client} (hnew : neighbor ∉ s.visited)
      (h : Returns order s neighbor (none, s')) (hrest : LoopReturns order s' rest r) :
    LoopReturns order s (neighbor :: rest) r
  | closed {s : Search Client} {neighbor : Client} {rest : List Client}
      (hold : neighbor ∈ s.visited) (hstack : neighbor ∈ s.recStack) :
    LoopReturns order s (neighbor :: rest) (some (s.path.drop (s.path.idxOf neighbor)), s)
  | passed {s : Search Client} {neighbor : Client} {rest : List Client}
      {r : Option (List Client) × Search Client} (hold : neighbor ∈ s.visited)
      (hstack : neighbor ∉ s.recStack) (hrest : LoopReturns order s rest r) :
    LoopReturns order s (neighbor :: rest) r

end

/-- The rest of the loop over the graph's keys ends, and `detect_cycle` with it. -/
inductive RootsReturn (order : Client → List Client) :
    Search Client → List Client → Option (List Client) → Prop
  | done {s : Search Client} : RootsReturn order s [] none
  | found {s s' : Search Client} {node : Client} {rest cycle : List Client}
      (hnew : node ∉ s.visited) (h : Returns order s node (some cycle, s')) :
    RootsReturn order s (node :: rest) (some cycle)
  | next {s s' : Search Client} {node : Client} {rest : List Client} {r : Option (List Client)}
      (hnew : node ∉ s.visited) (h : Returns order s node (none, s'))
      (hrest : RootsReturn order s' rest r) :
    RootsReturn order s (node :: rest) r
  | passed {s : Search Client} {node : Client} {rest : List Client} {r : Option (List Client)}
      (hold : node ∈ s.visited) (hrest : RootsReturn order s rest r) :
    RootsReturn order s (node :: rest) r

variable {g : WaitForGraph Client} {order : Client → List Client} {s : Search Client}

/-- `call` returns as `dfs` does and keeps what was visited, as long as at most `depth` nodes
are unvisited. -/
def Terminates (g : WaitForGraph Client) (order : Client → List Client) (depth : Nat)
    (call : Search Client → Client → Option (List Client) × Search Client) : Prop :=
  ∀ s c, c ∈ g.nodes → c ∉ s.visited → (g.nodes \ s.visited).card ≤ depth →
    Returns order s c (call s c) ∧ s.visited ⊆ (call s c).2.visited

theorem Terminates.loop {depth : Nat}
    {call : Search Client → Client → Option (List Client) × Search Client}
    (hcall : Terminates g order depth call) {rest : List Client} (hrest : ∀ b ∈ rest, b ∈ g.nodes)
    (hd : (g.nodes \ s.visited).card ≤ depth) :
    LoopReturns order s rest (Search.neighbors call s rest) ∧
      s.visited ⊆ (Search.neighbors call s rest).2.visited := by
  induction rest generalizing s with
  | nil => exact ⟨.done, Finset.Subset.refl _⟩
  | cons b rest ih =>
    have hrest' : ∀ c ∈ rest, c ∈ g.nodes := fun c hc => hrest c (List.mem_cons_of_mem b hc)
    rw [Search.neighbors]
    by_cases hb : b ∈ s.visited
    · rw [if_neg (not_not.mpr hb)]
      by_cases hstack : b ∈ s.recStack
      · rw [if_pos hstack]
        exact ⟨.closed hb hstack, Finset.Subset.refl _⟩
      · rw [if_neg hstack]
        obtain ⟨hreturns, hkept⟩ := ih hrest' hd
        exact ⟨.passed hb hstack hreturns, hkept⟩
    · rw [if_pos hb]
      obtain ⟨hfirst, hkept⟩ := hcall s b (hrest b List.mem_cons_self) hb hd
      cases hr : call s b with
      | mk result s' =>
        rw [hr] at hfirst hkept
        cases result with
        | some cycle => exact ⟨.found hb hfirst, hkept⟩
        | none =>
          obtain ⟨hreturns, hkept'⟩ := ih hrest' (card_unvisited_le hkept hd)
          exact ⟨.next hb hfirst hreturns, hkept.trans hkept'⟩

/-- Each call visits a node that was not visited before, so as many nested calls as there are
nodes are enough. -/
theorem terminates_dfs (ho : g.Enumerates order) (depth : Nat) :
    Terminates g order depth (dfs order depth) := by
  induction depth with
  | zero =>
    intro s c hc hv hd
    exact absurd (card_unvisited_pos hc hv) (Nat.not_lt.mpr hd)
  | succ depth ih =>
    intro s c hc hv hd
    have hlt := card_unvisited_lt hc hv
    have hnext : ∀ b ∈ order c, b ∈ g.nodes := fun b hb =>
      (WaitForGraph.mem_nodes_of_edge ((ho.mem c b).mp hb)).2
    obtain ⟨hloop, hkept⟩ := ih.loop hnext (s := s.enter c) (by omega)
    have hentered : s.visited ⊆ (s.enter c).visited := Finset.subset_insert c _
    rw [dfs]
    cases hr : Search.neighbors (dfs order depth) (s.enter c) (order c) with
    | mk result s' =>
      rw [hr] at hloop hkept
      cases result with
      | some cycle => exact ⟨.found hloop, hentered.trans hkept⟩
      | none => exact ⟨.left hloop, hentered.trans hkept⟩

theorem Terminates.roots {depth : Nat}
    {call : Search Client → Client → Option (List Client) × Search Client}
    (hcall : Terminates g order depth call) {rest : List Client} (hrest : ∀ c ∈ rest, c ∈ g.nodes)
    (hd : (g.nodes \ s.visited).card ≤ depth) :
    RootsReturn order s rest (Search.roots call s rest) := by
  induction rest generalizing s with
  | nil => exact .done
  | cons c rest ih =>
    have hrest' : ∀ b ∈ rest, b ∈ g.nodes := fun b hb => hrest b (List.mem_cons_of_mem c hb)
    rw [Search.roots]
    by_cases hc : c ∈ s.visited
    · rw [if_neg (not_not.mpr hc)]
      exact .passed hc (ih hrest' hd)
    · rw [if_pos hc]
      obtain ⟨hfirst, hkept⟩ := hcall s c (hrest c List.mem_cons_self) hc hd
      cases hr : call s c with
      | mk result s' =>
        rw [hr] at hfirst hkept
        cases result with
        | some cycle => exact .found hc hfirst
        | none => exact .next hc hfirst (ih hrest' (card_unvisited_le hkept hd))

end Search

namespace WaitForGraph
variable {g : WaitForGraph Client} {order : Client → List Client}

def Cyclic (g : WaitForGraph Client) : Prop :=
  ∃ a, Relation.TransGen (fun a b => b ∈ g.edges a) a a

theorem transGen_of_isChain {a b : Client} {rest : List Client}
    (h : (a :: rest).IsChain fun a b => b ∈ g.edges a)
    (hb : b ∈ g.edges ((a :: rest).getLast (List.cons_ne_nil a rest))) :
    Relation.TransGen (fun a b => b ∈ g.edges a) a b := by
  induction rest generalizing a with
  | nil => exact .single hb
  | cons c rest ih =>
    obtain ⟨hac, hrest⟩ := List.isChain_cons_cons.mp h
    refine .head hac (ih hrest ?_)
    rwa [List.getLast_cons (List.cons_ne_nil c rest)] at hb

theorem IsCycle.cyclic {cycle : List Client} (h : g.IsCycle cycle) : g.Cyclic := by
  obtain ⟨hne, -, hchain, hclosed⟩ := h
  cases cycle with
  | nil => exact absurd rfl hne
  | cons a rest =>
    exact ⟨a, transGen_of_isChain hchain
      (hclosed _ (List.getLast?_eq_some_getLast hne) a rfl)⟩

/-- `detect_cycle` returns for every graph and every order of iteration; it returns a list
exactly if the graph has a cycle, and the list is a simple cycle. -/
theorem detectCycle_exact (g : WaitForGraph Client) (order : Client → List Client)
    (ho : g.Enumerates order) :
    Search.RootsReturn order {} g.graph.keys (g.detectCycle order) ∧
      ((∃ cycle, g.detectCycle order = some cycle) ↔ g.Cyclic) ∧
      ∀ cycle, g.detectCycle order = some cycle → g.IsCycle cycle := by
  have hcycle (cycle : List Client) (h : g.detectCycle order = some cycle) : g.IsCycle cycle :=
    isCycle_of_detectCycle ho h
  refine ⟨?_, ?_, hcycle⟩
  · exact (Search.terminates_dfs ho g.nodes.card).roots
      (fun c hc => Finset.mem_union_left _ (List.mem_toFinset.mpr hc))
      (Finset.card_le_card Finset.sdiff_subset)
  · constructor
    · intro hx
      obtain ⟨cycle, h⟩ := hx
      exact (hcycle cycle h).cyclic
    · intro hx
      obtain ⟨a, ha⟩ := hx
      obtain ⟨cycle, h, -⟩ := detectCycle_of_transGen ho ha
      exact ⟨cycle, h⟩

/-- A triangle with a tail, of which an edge was taken back. -/
def tailed : WaitForGraph Nat :=
  (((((({} : WaitForGraph Nat).addWait 0 1).addWait 1 2).addWait 2 0).addWait 3 0).addWait
    1 3).removeWait 1 (some 3)

theorem detectCycle_exact_tailed :
    tailed.detectCycle (fun a => (tailed.edges a).sort (· ≤ ·)) = some [0, 1, 2] ∧
      tailed.Cyclic ∧ tailed.IsCycle [0, 1, 2] := by
  have hfound : tailed.detectCycle (fun a => (tailed.edges a).sort (· ≤ ·)) = some [0, 1, 2] := by
    decide +kernel
  have hexact := detectCycle_exact tailed (fun a => (tailed.edges a).sort (· ≤ ·))
    ⟨fun a b => by simp, fun a => Finset.sort_nodup _ _⟩
  exact ⟨hfound, hexact.2.1.mp ⟨_, hfound⟩, hexact.2.2 _ hfound⟩

end WaitForGraph
end DistSync.Locking
