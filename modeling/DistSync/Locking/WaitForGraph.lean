import Mathlib.Data.Finset.Union
import Mathlib.Data.Finset.Card
import Mathlib.Data.List.Chain
import Mathlib.Logic.Relation
import DistSync.Dict

/-! The wait-for graph and its depth-first cycle search. Nodes the search has left
are accessible along the edges, so none of them lies on a cycle; a node met again on
the recursion stack closes one. -/
namespace DistSync.Locking

/-- An entry maps a client to those it waits for; absent clients wait for nobody. -/
structure WaitForGraph (Client : Type) where
  graph : Dict Client (Finset Client) := ∅

/-- The variables that the nested `dfs` shares. -/
structure Search (Client : Type) where
  visited : Finset Client := ∅
  recStack : Finset Client := ∅
  path : List Client := []

namespace WaitForGraph
variable {Client : Type} [DecidableEq Client]

def edges (g : WaitForGraph Client) (c : Client) : Finset Client := (g.graph.get? c).getD ∅

def addWait (g : WaitForGraph Client) (waiter holder : Client) : WaitForGraph Client where
  graph := g.graph.set waiter (insert holder (g.edges waiter))

def removeWait (g : WaitForGraph Client) (waiter : Client) : Option Client → WaitForGraph Client
  | some holder => ⟨g.graph.set waiter ((g.edges waiter).erase holder)⟩
  | none => ⟨g.graph.erase waiter⟩

def removeNode (g : WaitForGraph Client) (node : Client) : WaitForGraph Client where
  graph := (g.graph.erase node).mapValues fun edges => edges.erase node

/-- `add_wait` for each of `holders`, whose order does not matter. -/
def addWaits (g : WaitForGraph Client) (waiter : Client) (holders : Finset Client) :
    WaitForGraph Client :=
  if holders = ∅ then g else ⟨g.graph.set waiter (holders ∪ g.edges waiter)⟩

section Edges
variable (g : WaitForGraph Client) (a b c : Client)

theorem edges_set (s : Finset Client) :
    edges ⟨g.graph.set c s⟩ a = if c = a then s else g.edges a := by
  simp only [edges, Dict.get?_set]
  split <;> rfl

/-- `addWaits` is the loop over the holders, in any order of them. -/
theorem addWaits_toFinset (holders : List Client) (g : WaitForGraph Client) :
    g.addWaits c holders.toFinset = holders.foldl (fun g holder => g.addWait c holder) g := by
  induction holders generalizing g with
  | nil => rfl
  | cons holder rest ih =>
    have hset (s : Finset Client) : (g.addWait c holder).graph.set c s = g.graph.set c s :=
      Dict.set_set ..
    have hedges : (g.addWait c holder).edges c = insert holder (g.edges c) := by
      rw [addWait, edges_set, if_pos rfl]
    rw [List.foldl_cons, ← ih, addWaits, if_neg (by simp), List.toFinset_cons]
    by_cases hrest : rest.toFinset = ∅
    · rw [addWaits, if_pos hrest, hrest]
      rfl
    · rw [addWaits, if_neg hrest, hset, hedges, Finset.insert_union, Finset.union_insert]

theorem mem_edges_addWaits (holders : Finset Client) :
    b ∈ (g.addWaits c holders).edges a ↔ c = a ∧ b ∈ holders ∨ b ∈ g.edges a := by
  by_cases hh : holders = ∅
  · simp [addWaits, hh]
  · rw [addWaits, if_neg hh, edges_set]
    by_cases h : c = a
    · subst h
      simp
    · simp [h]

theorem mem_edges_removeWait :
    b ∈ (g.removeWait c none).edges a ↔ a ≠ c ∧ b ∈ g.edges a := by
  simp only [removeWait, edges, Dict.get?_erase]
  by_cases h : a = c <;> simp [h]

theorem mem_edges_removeNode :
    b ∈ (g.removeNode c).edges a ↔ a ≠ c ∧ b ≠ c ∧ b ∈ g.edges a := by
  simp only [removeNode, edges, Dict.get?_mapValues, Dict.get?_erase]
  by_cases h : a = c
  · simp [h]
  · cases hg : g.graph.get? a <;> simp [h]

end Edges

/-- Clients with an entry and those they wait for. -/
def nodes (g : WaitForGraph Client) : Finset Client :=
  g.graph.keys.toFinset ∪ g.graph.keys.toFinset.biUnion g.edges

end WaitForGraph

namespace Search
variable {Client : Type} [DecidableEq Client]

def enter (s : Search Client) (node : Client) : Search Client where
  visited := insert node s.visited
  recStack := insert node s.recStack
  path := s.path ++ [node]

def leave (s : Search Client) (node : Client) : Search Client :=
  { s with path := s.path.dropLast, recStack := s.recStack.erase node }

/-- The loop of `dfs` over neighbors, with the recursive call as a parameter. -/
def neighbors (dfs : Search Client → Client → Option (List Client) × Search Client)
    (s : Search Client) : List Client → Option (List Client) × Search Client
  | [] => (none, s)
  | neighbor :: rest =>
    if neighbor ∉ s.visited then
      match dfs s neighbor with
      | (some result, s) => (some result, s)
      | (none, s) => neighbors dfs s rest
    else if neighbor ∈ s.recStack then (some (s.path.drop (s.path.idxOf neighbor)), s)
    else neighbors dfs s rest

/-- `order` gives the order in which Python iterates over each node's set of edges. The
recursion is at most as deep as the graph has nodes. -/
def dfs (order : Client → List Client) :
    Nat → Search Client → Client → Option (List Client) × Search Client
  | 0, s, _ => (none, s)
  | depth + 1, s, node =>
    match neighbors (dfs order depth) (s.enter node) (order node) with
    | (some result, s) => (some result, s)
    | (none, s) => (none, s.leave node)

/-- The loop over the graph's keys. -/
def roots (dfs : Search Client → Client → Option (List Client) × Search Client)
    (s : Search Client) : List Client → Option (List Client)
  | [] => none
  | node :: rest =>
    if node ∉ s.visited then
      match dfs s node with
      | (some result, _) => some result
      | (none, s) => roots dfs s rest
    else roots dfs s rest

end Search

namespace WaitForGraph
variable {Client : Type} [DecidableEq Client]

def detectCycle (g : WaitForGraph Client) (order : Client → List Client) : Option (List Client) :=
  Search.roots (Search.dfs order g.nodes.card) {} g.graph.keys

/-- `get_victim`, which is only called on a cycle. -/
def getVictim (cycle : List Client) : Option Client := cycle.getLast?

/-- An order in which Python may iterate over the edges: each of them once. -/
structure Enumerates (g : WaitForGraph Client) (order : Client → List Client) : Prop where
  mem : ∀ a b, b ∈ order a ↔ b ∈ g.edges a
  nodup : ∀ a, (order a).Nodup

/-- A simple cycle: each node has an edge to the next and the last one to the first. -/
structure IsCycle (g : WaitForGraph Client) (cycle : List Client) : Prop where
  ne_nil : cycle ≠ []
  nodup : cycle.Nodup
  chain : cycle.IsChain fun a b => b ∈ g.edges a
  closed : ∀ a ∈ cycle.getLast?, ∀ b ∈ cycle.head?, b ∈ g.edges a

end WaitForGraph

section Search
variable {Client : Type} [DecidableEq Client] {g : WaitForGraph Client}
  {order : Client → List Client} {s : Search Client}

/-- No infinite walk leads away from `c`. -/
abbrev WaitForGraph.Done (g : WaitForGraph Client) (c : Client) : Prop :=
  Acc (fun b a => b ∈ g.edges a) c

/-- The stack is the path, a simple walk; what was visited and left is done. -/
structure Search.Sound (g : WaitForGraph Client) (s : Search Client) : Prop where
  nodup : s.path.Nodup
  chain : s.path.IsChain fun a b => b ∈ g.edges a
  stack : ∀ c, c ∈ s.recStack ↔ c ∈ s.path
  visited : ∀ c ∈ s.path, c ∈ s.visited
  done : ∀ c ∈ s.visited, c ∉ s.path → g.Done c

theorem Search.card_unvisited_le {s' : Search Client} (h : s.visited ⊆ s'.visited) {depth : Nat}
    (hd : (g.nodes \ s.visited).card ≤ depth) : (g.nodes \ s'.visited).card ≤ depth :=
  (Finset.card_le_card (Finset.sdiff_subset_sdiff (Finset.Subset.refl g.nodes) h)).trans hd

theorem Search.card_unvisited_pos {c : Client} (hc : c ∈ g.nodes) (hv : c ∉ s.visited) :
    0 < (g.nodes \ s.visited).card :=
  Finset.card_pos.mpr ⟨c, Finset.mem_sdiff.mpr ⟨hc, hv⟩⟩

theorem Search.card_unvisited_lt {c : Client} (hc : c ∈ g.nodes) (hv : c ∉ s.visited) :
    (g.nodes \ (s.enter c).visited).card < (g.nodes \ s.visited).card := by
  refine Finset.card_lt_card ⟨Finset.sdiff_subset_sdiff (Finset.Subset.refl _)
    (Finset.subset_insert c _), fun hsub => ?_⟩
  have hm := Finset.mem_sdiff.mp (hsub (Finset.mem_sdiff.mpr ⟨hc, hv⟩))
  exact hm.2 (Finset.mem_insert_self c _)

/-- A search from `s` finds a cycle, or returns with the path restored and `P` established. -/
inductive Search.Outcome (g : WaitForGraph Client) (s : Search Client) (P : Prop) :
    Option (List Client) × Search Client → Prop
  | found {cycle : List Client} {s' : Search Client} (h : g.IsCycle cycle) :
    Outcome g s P (some cycle, s')
  | clear {s' : Search Client} (sound : s'.Sound g) (path : s'.path = s.path)
    (visited : s.visited ⊆ s'.visited) (h : P) : Outcome g s P (none, s')

theorem Search.Outcome.imp {P Q : Prop} {r : Option (List Client) × Search Client}
    (h : Outcome g s P r) (hPQ : P → Q) : Outcome g s Q r := by
  cases h with
  | found h => exact .found h
  | clear sound path visited h => exact .clear sound path visited (hPQ h)

theorem Search.Outcome.trans {s' : Search Client} {P : Prop}
    {r : Option (List Client) × Search Client} (h : Outcome g s' P r) (hp : s'.path = s.path)
    (hv : s.visited ⊆ s'.visited) : Outcome g s P r := by
  cases h with
  | found h => exact .found h
  | clear sound path visited h => exact .clear sound (path.trans hp) (hv.trans visited) h

/-- `call` searches from any unvisited node that the path may continue to, as long as
at most `depth` nodes are unvisited. -/
def Search.Searches (g : WaitForGraph Client) (depth : Nat)
    (call : Search Client → Client → Option (List Client) × Search Client) : Prop :=
  ∀ s c, s.Sound g → c ∈ g.nodes → c ∉ s.visited → (g.nodes \ s.visited).card ≤ depth →
    (∀ a ∈ s.path.getLast?, c ∈ g.edges a) → Outcome g s (g.Done c) (call s c)

theorem Search.Sound.enter (h : s.Sound g) {c : Client} (hc : c ∉ s.visited)
    (hl : ∀ a ∈ s.path.getLast?, c ∈ g.edges a) : (s.enter c).Sound g where
  nodup := by
    refine List.nodup_append.mpr ⟨h.nodup, List.nodup_singleton c, fun a ha b hb he => hc ?_⟩
    rw [← List.mem_singleton.mp hb, ← he]
    exact h.visited a ha
  chain := by
    refine h.chain.append (List.isChain_singleton c) fun a ha b hb => ?_
    cases hb
    exact hl a ha
  stack a := by simp [Search.enter, h.stack, or_comm]
  visited a ha := by
    cases List.mem_append.mp ha with
    | inl ha => exact Finset.mem_insert_of_mem (h.visited a ha)
    | inr ha => simp [Search.enter, List.mem_singleton.mp ha]
  done a ha hn := by
    have hne : a ≠ c ∧ a ∉ s.path := by simpa [Search.enter, and_comm] using hn
    exact h.done a (Finset.mem_of_mem_insert_of_ne ha hne.1) hne.2

theorem Search.Sound.leave (h : s.Sound g) {c : Client} {p : List Client} (hp : s.path = p ++ [c])
    (hc : g.Done c) : (s.leave c).Sound g ∧ (s.leave c).path = p := by
  have hpath : (s.leave c).path = p := by simp [Search.leave, hp]
  have hn : p.Nodup ∧ c ∉ p := by
    have hn := h.nodup
    rw [hp, List.nodup_append] at hn
    exact ⟨hn.1, fun hm => hn.2.2 c hm c (List.mem_singleton_self c) rfl⟩
  refine ⟨⟨?_, ?_, fun a => ?_, fun a ha => ?_, fun a ha hna => ?_⟩, hpath⟩
  · rw [hpath]
    exact hn.1
  · rw [hpath]
    have hch := h.chain
    rw [hp] at hch
    exact hch.left_of_append
  · rw [hpath]
    simp only [Search.leave, Finset.mem_erase, h.stack, hp, List.mem_append, List.mem_singleton]
    constructor
    · intro hx
      obtain ⟨hne, ha⟩ := hx
      exact ha.resolve_right hne
    · intro ha
      exact ⟨fun he => hn.2 (he ▸ ha), .inl ha⟩
  · rw [hpath] at ha
    exact h.visited a (by simp [hp, ha])
  · rw [hpath] at hna
    by_cases hac : a = c
    · rwa [hac]
    · exact h.done a ha (by simp [hp, hna, hac])

theorem Search.Sound.isCycle (h : s.Sound g) {a b : Client} (ha : s.path.getLast? = some a)
    (hb : b ∈ s.path) (he : b ∈ g.edges a) :
    g.IsCycle (s.path.drop (s.path.idxOf b)) := by
  have hi : s.path.idxOf b < s.path.length := List.idxOf_lt_length_iff.mpr hb
  have hhead : (s.path.drop (s.path.idxOf b)).head? = some b := by
    rw [List.head?_drop, List.getElem?_eq_getElem hi, List.getElem_idxOf]
  refine ⟨?_, h.nodup.sublist (List.drop_sublist _ _), h.chain.drop _, fun c hc d hd => ?_⟩
  · intro hnil
    rw [hnil] at hhead
    cases hhead
  · rw [List.getLast?_drop, if_neg hi.not_ge, ha] at hc
    rw [hhead] at hd
    cases hc
    cases hd
    exact he

theorem WaitForGraph.mem_nodes_of_edge {a b : Client} (h : b ∈ g.edges a) :
    a ∈ g.graph.keys ∧ b ∈ g.nodes := by
  have ha : a ∈ g.graph.keys := by
    by_contra hn
    rw [WaitForGraph.edges, Dict.get?_eq_none.mpr hn] at h
    exact absurd h (Finset.notMem_empty b)
  refine ⟨ha, Finset.mem_union_right _ (Finset.mem_biUnion.mpr ⟨a, ?_, h⟩)⟩
  simpa using ha

theorem Search.Searches.neighbors {depth : Nat}
    {call : Search Client → Client → Option (List Client) × Search Client}
    (hcall : Searches g depth call) {a : Client} {rest : List Client} (hs : s.Sound g)
    (ha : s.path.getLast? = some a) (hrest : ∀ b ∈ rest, b ∈ g.edges a)
    (hd : (g.nodes \ s.visited).card ≤ depth) :
    Outcome g s (∀ b ∈ rest, g.Done b) (Search.neighbors call s rest) := by
  induction rest generalizing s with
  | nil => exact .clear hs rfl (Finset.Subset.refl _) fun b hb => by cases hb
  | cons b rest ih =>
    have he := hrest b List.mem_cons_self
    have hrest' : ∀ c ∈ rest, c ∈ g.edges a := fun c hc => hrest c (List.mem_cons_of_mem b hc)
    rw [Search.neighbors]
    by_cases hb : b ∈ s.visited
    · rw [if_neg (not_not.mpr hb)]
      by_cases hst : b ∈ s.recStack
      · rw [if_pos hst]
        exact .found (hs.isCycle ha ((hs.stack b).mp hst) he)
      · rw [if_neg hst]
        have hdone := hs.done b hb fun hp => hst ((hs.stack b).mpr hp)
        exact (ih hs ha hrest' hd).imp fun h => List.forall_mem_cons.mpr ⟨hdone, h⟩
    · rw [if_pos hb]
      have hout := hcall s b hs (WaitForGraph.mem_nodes_of_edge he).2 hb hd fun c hc => by
        rw [ha] at hc
        cases hc
        exact he
      cases hr : call s b with
      | mk result s' =>
        rw [hr] at hout
        cases hout with
        | found h => exact .found h
        | clear sound path visited hdone =>
          have hd' := Search.card_unvisited_le visited hd
          exact ((ih sound (path ▸ ha) hrest' hd').trans path visited).imp fun h =>
            List.forall_mem_cons.mpr ⟨hdone, h⟩

theorem Search.searches_dfs (ho : g.Enumerates order) (depth : Nat) :
    Searches g depth (dfs order depth) := by
  induction depth with
  | zero =>
    intro s c hs hc hv hd hl
    exact absurd (Search.card_unvisited_pos hc hv) (Nat.not_lt.mpr hd)
  | succ depth ih =>
    intro s c hs hc hv hd hl
    have hlt := Search.card_unvisited_lt hc hv
    have hnext : ∀ b ∈ order c, b ∈ g.edges c := fun b hb => (ho.mem c b).mp hb
    have hout := ih.neighbors (hs.enter hv hl) List.getLast?_concat hnext (by omega)
    rw [dfs]
    cases hr : Search.neighbors (dfs order depth) (s.enter c) (order c) with
    | mk result s' =>
      rw [hr] at hout
      cases hout with
      | found h => exact .found h
      | clear sound path visited h =>
        have hdone : g.Done c := ⟨c, fun b hb => h b ((ho.mem c b).mpr hb)⟩
        obtain ⟨hs', hp'⟩ := sound.leave path hdone
        exact .clear hs' hp' ((Finset.subset_insert c _).trans visited) hdone

theorem Search.Searches.roots {depth : Nat}
    {call : Search Client → Client → Option (List Client) × Search Client}
    (hcall : Searches g depth call) {rest : List Client} (hs : s.Sound g) (hp : s.path = [])
    (hrest : ∀ c ∈ rest, c ∈ g.nodes) (hd : (g.nodes \ s.visited).card ≤ depth) :
    (∀ cycle, Search.roots call s rest = some cycle → g.IsCycle cycle) ∧
      (Search.roots call s rest = none → ∀ c ∈ rest, g.Done c) := by
  induction rest generalizing s with
  | nil => exact ⟨fun cycle h => (by cases h), fun _ => List.forall_mem_nil _⟩
  | cons c rest ih =>
    have hrest' : ∀ b ∈ rest, b ∈ g.nodes := fun b hb => hrest b (List.mem_cons_of_mem c hb)
    rw [Search.roots]
    by_cases hc : c ∈ s.visited
    · rw [if_neg (not_not.mpr hc)]
      have hdone : g.Done c := hs.done c hc (by simp [hp])
      obtain ⟨hsome, hnone⟩ := ih hs hp hrest' hd
      exact ⟨hsome, fun h => List.forall_mem_cons.mpr ⟨hdone, hnone h⟩⟩
    · rw [if_pos hc]
      have hout := hcall s c hs (hrest c List.mem_cons_self) hc hd (by simp [hp])
      cases hr : call s c with
      | mk result s' =>
        rw [hr] at hout
        cases hout with
        | found h =>
          refine ⟨fun cycle he => ?_, fun he => by cases he⟩
          cases he
          exact h
        | clear sound path visited hdone =>
          have hd' := Search.card_unvisited_le visited hd
          obtain ⟨hsome, hnone⟩ := ih sound (path.trans hp) hrest' hd'
          exact ⟨hsome, fun h => List.forall_mem_cons.mpr ⟨hdone, hnone h⟩⟩

theorem Search.sound_empty : Search.Sound g {} where
  nodup := List.nodup_nil
  chain := List.isChain_nil
  stack c := by simp
  visited c hc := by cases hc
  done c hc := absurd hc (Finset.notMem_empty c)

theorem WaitForGraph.isCycle_of_detectCycle (ho : g.Enumerates order) {cycle : List Client}
    (h : g.detectCycle order = some cycle) : g.IsCycle cycle :=
  ((Search.searches_dfs ho _).roots Search.sound_empty rfl
    (fun _ hc => Finset.mem_union_left _ (List.mem_toFinset.mpr hc))
    (Finset.card_le_card Finset.sdiff_subset)).1 cycle h

theorem WaitForGraph.Done.no_cycle {a : Client} (h : g.Done a) :
    ¬ Relation.TransGen (fun b a => b ∈ g.edges a) a a := by
  have hacc := h.transGen
  clear h
  induction hacc with
  | intro a _ ih => exact fun hloop => ih a hloop hloop

theorem WaitForGraph.detectCycle_of_transGen (ho : g.Enumerates order) {a : Client}
    (h : Relation.TransGen (fun a b => b ∈ g.edges a) a a) :
    ∃ cycle, g.detectCycle order = some cycle ∧ g.IsCycle cycle := by
  cases hc : g.detectCycle order with
  | some cycle => exact ⟨cycle, rfl, isCycle_of_detectCycle ho hc⟩
  | none =>
    have hdone := ((Search.searches_dfs ho _).roots Search.sound_empty rfl
      (fun _ hc => Finset.mem_union_left _ (List.mem_toFinset.mpr hc))
      (Finset.card_le_card Finset.sdiff_subset)).2 hc
    obtain ⟨b, hab, -⟩ := Relation.TransGen.head'_iff.mp h
    exact absurd (Relation.transGen_swap.mp h) (hdone a (mem_nodes_of_edge hab).1).no_cycle

end Search
end DistSync.Locking
