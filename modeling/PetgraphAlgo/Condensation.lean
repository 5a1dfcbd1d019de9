import PetgraphAlgo.Kosaraju
import PetgraphAlgo.Toposort

/-!
# `condensation`

`condensation(g, make_acyclic)` (`src/algo/mod.rs`) numbers the components of
`kosaraju_scc(&g)` `0, 1, ...`, adding one node per component, and records in `node_map` the
node of each node's component.  It then pushes every node's weight onto its component's node,
in node-index order, and re-targets every edge through `node_map`.  With `make_acyclic` an
edge inside one component is dropped and the others go through `update_edge`.

petgraph's `Graph` is not part of this repository.  `PGraph` models it from the spec: node
weights by index, edges in edge-index order, and `update_edge` keeping at most one edge per
ordered pair, a later edge replacing the weight of the earlier one.

* `nodeMap_eq_some`: `node_map` sends a node to the index of its component.
* `condensedWeights_eq`: node `k` receives the weights of the nodes mapped to it.
* `condensedEdges_pairWeights`: in acyclic mode the edges from `a` to `b` are one edge,
  weighing as the last edge of `g` mapped from `a` to `b`, when `a ≠ b` and there is one,
  and none otherwise.
* `condensedEdges_false`: without `make_acyclic` the `i`-th edge of `g` becomes the `i`-th edge
  of the result, re-targeted through `node_map`.
* `condensation_spec`: in both modes `node_map` is total and node `k` carries the weights of
  the `k`-th component in node order, so the weights are neither lost nor repeated.
* `condensation_target_lt`: an edge of the result goes to a component that `kosaraju_scc`
  lists earlier, since an edge of `g` between components does.
* `condensation_acyclic`: the result has one node per component, carrying that component's
  weights.  For every ordered pair of distinct components joined by an edge of `g` it has
  exactly one edge, weighing as the last such edge, and no other edges.  Every edge goes
  from a higher index to a lower one, so `toposort` succeeds on it, and an undirected `g`
  leaves no edges.
-/

namespace Petgraph

variable {n m : ℕ} {N N' E : Type}

/-- Modelled from the spec: an edge of a `Graph`, between two node indices. -/
structure GraphEdge (n : ℕ) (E : Type) where
  source : Fin n
  target : Fin n
  weight : E

/-- Modelled from the spec: petgraph's `Graph<N, E, Ty, Ix>` on the node indices `0 .. n`:
whether it is directed, the weight of each node, and the edges in edge-index order. -/
structure PGraph (n : ℕ) (N E : Type) where
  directed : Bool
  nodeWeight : Fin n → N
  edges : List (GraphEdge n E)

namespace PGraph

variable (G : PGraph n N E)

/-- Modelled from the spec: the targets of the edges leaving `a`.  A `Graph` keeps each node's
edges in a list it links new edges in front of, so the edge added last comes first. -/
def outNeighbors (a : Fin n) : List (Fin n) :=
  ((G.edges.filter (·.source = a)).map (·.target)).reverse

/-- Modelled from the spec: the sources of the edges entering `a`, the edge added last first. -/
def inNeighbors (a : Fin n) : List (Fin n) :=
  ((G.edges.filter (·.target = a)).map (·.source)).reverse

/-- Modelled from the spec: the capability bundle the generic algorithms read.
`neighbors(a)` walks the edges leaving `a` and, in an undirected graph, then those entering
`a`; `neighbors_directed(a, Incoming)` walks the edges entering `a`, and in an undirected graph
is `neighbors(a)`.  An undirected self-loop is listed from both of its ends; a node listed
again is already discovered when it is met again, so no algorithm here depends on that. -/
def view : Graph n where
  nodeIdentifiers := List.finRange n
  neighbors a := G.outNeighbors a ++ if G.directed then [] else G.inNeighbors a
  incoming a := (if G.directed then [] else G.outNeighbors a) ++ G.inNeighbors a
  nodup_nodeIdentifiers := List.nodup_finRange n
  mem_nodeIdentifiers := List.mem_finRange
  mem_incoming a b := by
    cases G.directed <;> simp only [outNeighbors, inNeighbors, List.mem_append, List.mem_reverse,
      List.mem_map, List.mem_filter, decide_eq_true_eq, Bool.false_eq_true, ite_true, ite_false,
      List.not_mem_nil, or_false, false_or]
    · exact (or_comm).trans (or_congr (exists_congr fun e => by tauto) (exists_congr fun e => by tauto))
    · exact exists_congr fun e => by tauto

/-- Modelled from the spec: `add_edge(a, b, weight)` adds an edge after all the others. -/
def addEdge (a b : Fin n) (w : E) : PGraph n N E := { G with edges := G.edges ++ [⟨a, b, w⟩] }

/-- Modelled from the spec: `update_edge(a, b, weight)` keeps at most one edge from `a` to `b`.
An edge from `a` to `b` already there takes the new weight; otherwise one is added. -/
def updateEdge (a b : Fin n) (w : E) : PGraph n N E :=
  if G.edges.any fun e => e.source = a ∧ e.target = b then
    { G with edges := G.edges.map fun e =>
        { e with weight := if e.source = a ∧ e.target = b then w else e.weight } }
  else G.addEdge a b w

/-- The weights of the edges from `a` to `b`, in edge order. -/
def pairWeights (a b : Fin n) : List E :=
  (G.edges.filter fun e => e.source = a ∧ e.target = b).map (·.weight)

end PGraph

/-- `node_map` after `for comp in sccs { let new_nix = condensed.add_node(Vec::new()); for nix
in comp { node_map[nix.index()] = new_nix; } }`.  The `k`-th `add_node` returns the index `k`,
and an entry never written still holds `NodeIndex::end()`, here `none`. -/
def nodeMap (sccs : List (List (Fin n))) : Fin n → Option (Fin sccs.length) :=
  (List.finRange sccs.length).foldl
    (fun nodeMap k => (sccs.get k).foldl (fun nodeMap nix => Function.update nodeMap nix (some k))
      nodeMap)
    fun _ => none

/-- `for (nix, node) in nodes.into_iter().enumerate() { condensed[node_map[nix]].push(node.weight) }`
from empty weight lists.  Indexing with `NodeIndex::end()` would panic; that branch does
nothing here. -/
def condensedWeights (G : PGraph n N E) (nodeMap : Fin n → Option (Fin m)) : Fin m → List N :=
  (List.finRange n).foldl (fun weights nix =>
    match nodeMap nix with
    | some k => Function.update weights k (weights k ++ [G.nodeWeight nix])
    | none => weights) fun _ => []

/-- The body of `for edge in edges`: re-target the edge through `node_map`.  With
`make_acyclic` an edge whose ends share a component is dropped and the others go through
`update_edge`; otherwise it goes through `add_edge`. -/
def condenseEdge (nodeMap : Fin n → Option (Fin m)) (makeAcyclic : Bool)
    (condensed : PGraph m N' E) (edge : GraphEdge n E) : PGraph m N' E :=
  match nodeMap edge.source, nodeMap edge.target with
  | some source, some target =>
    if makeAcyclic then
      if source ≠ target then condensed.updateEdge source target edge.weight else condensed
    else condensed.addEdge source target edge.weight
  | _, _ => condensed

/-- `for edge in edges { ... }`. -/
def condensedEdges (nodeMap : Fin n → Option (Fin m)) (makeAcyclic : Bool)
    (edges : List (GraphEdge n E)) (condensed : PGraph m N' E) : PGraph m N' E :=
  edges.foldl (condenseEdge nodeMap makeAcyclic) condensed

/-- `condensation(g, make_acyclic)`. -/
def condensation (G : PGraph n N E) (makeAcyclic : Bool) :
    PGraph (kosarajuScc G.view).length (List N) E :=
  condensedEdges (nodeMap (kosarajuScc G.view)) makeAcyclic G.edges
    ⟨G.directed, condensedWeights G (nodeMap (kosarajuScc G.view)), []⟩

/-- The weight of the last edge of `es` whose ends are mapped to `a` and `b`, for `a ≠ b`. -/
def lastWeight (nodeMap : Fin n → Option (Fin m)) (es : List (GraphEdge n E)) (a b : Fin m) :
    Option E :=
  ((es.filter fun e => a ≠ b ∧ nodeMap e.source = some a ∧ nodeMap e.target = some b).map
    (·.weight)).getLast?

/-! ## The view and `update_edge` -/

namespace PGraph

variable {G : PGraph n N E} {a b : Fin n}

theorem view_adj : G.view.Adj a b ↔
    ∃ e ∈ G.edges, (e.source = a ∧ e.target = b) ∨ (G.directed = false ∧ e.target = a ∧ e.source = b) := by
  simp only [Graph.Adj, view, outNeighbors, inNeighbors]
  cases G.directed <;> simp [and_or_left, exists_or, and_assoc]

/-- Edges from `a` to `b` only: only those with `b < a` are there, so no cycle. -/
theorem view_acyclic (hdir : G.directed = true) (h : ∀ e ∈ G.edges, e.target < e.source) :
    G.view.Acyclic := by
  have hlt : ∀ a b, Relation.TransGen G.view.Adj a b → b < a := by
    intro a b hab
    induction hab with
    | single hab =>
      obtain ⟨e, he, ⟨rfl, rfl⟩ | ⟨hd, -⟩⟩ := view_adj.1 hab
      exacts [h e he, absurd (hdir.symm.trans hd) (by decide)]
    | tail _ hbc ih =>
      obtain ⟨e, he, ⟨rfl, rfl⟩ | ⟨hd, -⟩⟩ := view_adj.1 hbc
      exacts [(h e he).trans ih, absurd (hdir.symm.trans hd) (by decide)]
  exact fun a ha => lt_irrefl a (hlt a a ha)

/-- An edge of weight `w` from `a` to `b` shows in `pairWeights a b`. -/
theorem weight_mem_pairWeights {e : GraphEdge n E} (he : e ∈ G.edges) :
    e.weight ∈ G.pairWeights e.source e.target :=
  List.mem_map.2 ⟨e, List.mem_filter.2 ⟨he, by simp⟩, rfl⟩

/-- Re-weighting keeps each pair's edges, with their new weights. -/
theorem pairWeights_reweight (l : List (GraphEdge n E)) (f : GraphEdge n E → E) (a' b' : Fin n) :
    ((l.map fun e => ({ e with weight := f e } : GraphEdge n E)).filter
      fun e => e.source = a' ∧ e.target = b').map (·.weight) =
    (l.filter fun e => e.source = a' ∧ e.target = b').map f := by
  induction l with
  | nil => rfl
  | cons e l ih =>
    by_cases h : e.source = a' ∧ e.target = b' <;> simp [List.filter_cons, h, ih, -Bool.decide_and]

/-- `update_edge(a, b, w)` on a graph with at most one edge from `a` to `b`: the pair `(a, b)`
has one edge, of weight `w`, and every other pair is unchanged. -/
theorem updateEdge_pairWeights {w : E} (h : (G.pairWeights a b).length ≤ 1) (a' b' : Fin n) :
    (G.updateEdge a b w).pairWeights a' b' =
      if a' = a ∧ b' = b then [w] else G.pairWeights a' b' := by
  unfold updateEdge
  split_ifs with hany hab hab
  · obtain ⟨rfl, rfl⟩ := hab
    obtain ⟨e, he, hsrc⟩ := List.any_eq_true.1 hany
    obtain ⟨hs, ht⟩ : e.source = a' ∧ e.target = b' := by simpa using hsrc
    have hlen : (G.pairWeights a' b').length = 1 :=
      le_antisymm h (List.length_pos_of_mem (hs ▸ ht ▸ weight_mem_pairWeights he))
    simp only [pairWeights, List.length_map] at hlen ⊢
    rw [pairWeights_reweight, List.map_congr_left fun e he => if_pos (by simpa using (List.mem_filter.1 he).2),
      List.map_const', hlen, List.replicate_one]
  · simp only [pairWeights]
    rw [pairWeights_reweight]
    refine List.map_congr_left fun e he => if_neg ?_
    obtain ⟨rfl, rfl⟩ : e.source = a' ∧ e.target = b' := by simpa using (List.mem_filter.1 he).2
    exact hab
  · obtain ⟨rfl, rfl⟩ := hab
    have hnil : G.pairWeights a' b' = [] := by
      simp only [pairWeights, List.map_eq_nil_iff, List.filter_eq_nil_iff]
      exact fun e he hP => hany (List.any_eq_true.2 ⟨e, he, hP⟩)
    simp only [pairWeights, addEdge, List.filter_append, List.map_append] at hnil ⊢
    rw [hnil]
    simp
  · simp only [pairWeights, addEdge, List.filter_append, List.map_append]
    simp
    exact fun h₁ h₂ => hab ⟨h₁.symm, h₂.symm⟩

end PGraph

/-! ## `node_map` and the weights -/

section NodeMap

variable {sccs : List (List (Fin n))}

/-- The inner loop writes `x` at the nodes of `comp`. -/
theorem foldl_update_apply {α : Type} (comp : List (Fin n)) (x : α) (f : Fin n → α) (v : Fin n) :
    (comp.foldl (fun f nix => Function.update f nix x) f) v = if v ∈ comp then x else f v := by
  induction comp generalizing f with
  | nil => simp
  | cons a comp ih =>
    rw [List.foldl_cons, ih]
    by_cases hv : v ∈ comp
    · simp [hv]
    · by_cases hva : v = a
      · subst hva; simp [hv]
      · simp [hv, hva, Function.update_noteq hva]

/-- The loop over the components: the last component holding `v` wins. -/
theorem nodeMap_foldl (ks : List (Fin sccs.length)) (f : Fin n → Option (Fin sccs.length))
    (v : Fin n) :
    (ks.foldl (fun nodeMap k => (sccs.get k).foldl
      (fun nodeMap nix => Function.update nodeMap nix (some k)) nodeMap) f) v =
      ((ks.filter fun k => v ∈ sccs.get k).getLast?).or (f v) := by
  induction ks generalizing f with
  | nil => rfl
  | cons k ks ih =>
    rw [List.foldl_cons, ih, foldl_update_apply]
    by_cases hv : v ∈ sccs.get k
    · rw [if_pos hv, List.filter_cons, if_pos (decide_eq_true hv), List.getLast?_cons]
      generalize (ks.filter fun k => v ∈ sccs.get k).getLast? = o
      cases o <;> rfl
    · rw [if_neg hv, List.filter_cons, if_neg (by simpa using hv)]

/-- In a list of lists without repeated elements, a node lies in one list at most. -/
theorem eq_of_mem_get (hnd : sccs.flatten.Nodup) {k k' : Fin sccs.length} {v : Fin n}
    (hk : v ∈ sccs.get k) (hk' : v ∈ sccs.get k') : k = k' := by
  have hp := (List.nodup_flatten.1 hnd).2
  by_contra hne
  rcases Nat.lt_or_gt_of_ne (Fin.val_ne_of_ne hne) with hlt | hlt
  · exact List.pairwise_iff_getElem.1 hp k k' k.2 k'.2 hlt hk hk'
  · exact List.pairwise_iff_getElem.1 hp k' k k'.2 k.2 hlt hk' hk

/-- `node_map` sends a node to the index of its component. -/
theorem nodeMap_eq_some (hnd : sccs.flatten.Nodup) {v : Fin n} {k : Fin sccs.length} :
    nodeMap sccs v = some k ↔ v ∈ sccs.get k := by
  rw [nodeMap, nodeMap_foldl, Option.or_none]
  constructor
  · intro h
    simpa using (List.mem_filter.1 (List.mem_of_getLast?_eq_some h)).2
  · intro hv
    have hne : (List.finRange sccs.length).filter (fun k => v ∈ sccs.get k) ≠ [] :=
      List.ne_nil_of_mem (List.mem_filter.2 ⟨List.mem_finRange k, decide_eq_true hv⟩)
    rw [List.getLast?_eq_getLast _ hne]
    have hmem := (List.mem_filter.1 (List.getLast_mem hne)).2
    exact congrArg some (eq_of_mem_get hnd (of_decide_eq_true hmem) hv)

end NodeMap

/-! ## The edges -/

section Edges

variable (nodeMap : Fin n → Option (Fin m))

theorem lastWeight_append (es : List (GraphEdge n E)) (e : GraphEdge n E) (a b : Fin m) :
    lastWeight nodeMap (es ++ [e]) a b =
      if a ≠ b ∧ nodeMap e.source = some a ∧ nodeMap e.target = some b then some e.weight
      else lastWeight nodeMap es a b := by
  unfold lastWeight
  rw [List.filter_append, List.map_append, List.getLast?_append]
  split_ifs with h
  · simp [List.filter_cons, h]
  · simp [List.filter_cons, h]

/-- Re-targeting an edge changes the edges of one component pair, and no node weight. -/
theorem condenseEdge_spec (makeAcyclic : Bool) (C : PGraph m N' E) (e : GraphEdge n E) :
    (condenseEdge nodeMap makeAcyclic C e).nodeWeight = C.nodeWeight ∧
      (condenseEdge nodeMap makeAcyclic C e).directed = C.directed := by
  unfold condenseEdge PGraph.updateEdge PGraph.addEdge
  split <;> (try split_ifs) <;> exact ⟨rfl, rfl⟩

theorem condensedEdges_spec (makeAcyclic : Bool) (es : List (GraphEdge n E)) (C : PGraph m N' E) :
    (condensedEdges nodeMap makeAcyclic es C).nodeWeight = C.nodeWeight ∧
      (condensedEdges nodeMap makeAcyclic es C).directed = C.directed := by
  induction es generalizing C with
  | nil => exact ⟨rfl, rfl⟩
  | cons e es ih =>
    obtain ⟨h₁, h₂⟩ := condenseEdge_spec nodeMap makeAcyclic C e
    exact ⟨(ih _).1.trans h₁, (ih _).2.trans h₂⟩

/-- **The loop without `make_acyclic`.**  With `node_map` total, every edge goes through
`add_edge`, in order, re-targeted through `node_map`. -/
theorem condensedEdges_false {f : Fin n → Fin m} (hf : ∀ v, nodeMap v = some (f v))
    (es : List (GraphEdge n E)) (C : PGraph m N' E) :
    (condensedEdges nodeMap false es C).edges =
      C.edges ++ es.map fun e => ⟨f e.source, f e.target, e.weight⟩ := by
  induction es generalizing C with
  | nil => simp [condensedEdges]
  | cons e es ih =>
    simp only [condensedEdges, List.foldl_cons] at ih ⊢
    rw [ih]
    simp [condenseEdge, hf, PGraph.addEdge]

/-- One edge in acyclic mode, on a graph with at most one edge per pair. -/
theorem condenseEdge_pairWeights {C : PGraph m N' E} (hC : ∀ a b, (C.pairWeights a b).length ≤ 1)
    (e : GraphEdge n E) (a b : Fin m) :
    (condenseEdge nodeMap true C e).pairWeights a b =
      if a ≠ b ∧ nodeMap e.source = some a ∧ nodeMap e.target = some b then [e.weight]
      else C.pairWeights a b := by
  unfold condenseEdge
  split
  · rename_i s t hs ht
    simp only [hs, ht, Option.some.injEq, if_true]
    split_ifs with hst h h
    · rw [PGraph.updateEdge_pairWeights (hC s t), if_pos ⟨h.2.1.symm, h.2.2.symm⟩]
    · rw [PGraph.updateEdge_pairWeights (hC s t), if_neg]
      rintro ⟨rfl, rfl⟩
      exact h ⟨hst, rfl, rfl⟩
    · obtain ⟨hab, rfl, rfl⟩ := h
      exact absurd (not_not.1 hst) hab
    · rfl
  · rename_i hnone
    rw [if_neg]
    rintro ⟨-, hs, ht⟩
    exact hnone _ _ hs ht

/-- **The acyclic-mode loop.**  Starting from the edges of `es₀`, after the edges `es` the
edges from `a` to `b` are one edge weighing as the last edge of `es₀ ++ es` mapped from `a`
to `b ≠ a`, or none. -/
theorem condensedEdges_pairWeights (es : List (GraphEdge n E)) :
    ∀ (es₀ : List (GraphEdge n E)) (C : PGraph m N' E),
      (∀ a b, C.pairWeights a b = (lastWeight nodeMap es₀ a b).toList) → ∀ a b,
      (condensedEdges nodeMap true es C).pairWeights a b = (lastWeight nodeMap (es₀ ++ es) a b).toList := by
  induction es with
  | nil => intro es₀ C hC; simpa using hC
  | cons e es ih =>
    intro es₀ C hC
    have hle : ∀ a b, (C.pairWeights a b).length ≤ 1 := fun a b => by
      rw [hC]; cases lastWeight nodeMap es₀ a b <;> simp
    rw [← List.singleton_append, ← List.append_assoc]
    refine ih (es₀ ++ [e]) _ fun a b => ?_
    rw [condenseEdge_pairWeights nodeMap hle, lastWeight_append, hC]
    split_ifs <;> rfl

end Edges

/-- The weight loop: node `k` gets the weights of the nodes mapped to it, in node order. -/
theorem condensedWeights_eq (G : PGraph n N E) (nodeMap : Fin n → Option (Fin m)) (k : Fin m) :
    condensedWeights G nodeMap k =
      ((List.finRange n).filter fun v => nodeMap v = some k).map G.nodeWeight := by
  suffices ∀ (l : List (Fin n)) (w : Fin m → List N), (l.foldl (fun weights nix =>
      match nodeMap nix with
      | some k => Function.update weights k (weights k ++ [G.nodeWeight nix])
      | none => weights) w) k = w k ++ (l.filter fun v => nodeMap v = some k).map G.nodeWeight from
    this _ _
  intro l
  induction l with
  | nil => simp
  | cons v l ih =>
    intro w
    rw [List.foldl_cons, ih]
    cases hv : nodeMap v with
    | none => simp [List.filter_cons, hv]
    | some k' =>
      by_cases hk : k' = k
      · subst hk; simp [List.filter_cons, hv]
      · simp [List.filter_cons, hv, hk, Function.update_noteq (Ne.symm hk)]

/-! ## The result of `condensation(g, true)` -/

section Result

variable (G : PGraph n N E)

/-- `node_map` read through the components of `kosaraju_scc(g)`. -/
theorem nodeMap_kosarajuScc {v : Fin n} {k : Fin (kosarajuScc G.view).length} :
    nodeMap (kosarajuScc G.view) v = some k ↔ v ∈ (kosarajuScc G.view).get k := by
  obtain ⟨_, _, I, -⟩ := kosarajuScc_inv G.view
  exact nodeMap_eq_some I.nodup

/-- In both modes node `k` carries the weights of the `k`-th component, in node order. -/
theorem nodeWeight_condensation (makeAcyclic : Bool) (k : Fin (kosarajuScc G.view).length) :
    (condensation G makeAcyclic).nodeWeight k =
      ((List.finRange n).filter (· ∈ (kosarajuScc G.view).get k)).map G.nodeWeight := by
  rw [condensation, (condensedEdges_spec _ makeAcyclic G.edges _).1]
  dsimp only
  rw [condensedWeights_eq]
  simp only [nodeMap_kosarajuScc]

theorem condensation_nodeWeight (k : Fin (kosarajuScc G.view).length) :
    (condensation G true).nodeWeight k =
      ((List.finRange n).filter (· ∈ (kosarajuScc G.view).get k)).map G.nodeWeight :=
  nodeWeight_condensation G true k

/-- `node_map` is total: every node lies in a component of `kosaraju_scc(g)` and is mapped
to it, so no entry is left at `NodeIndex::end()`. -/
theorem exists_nodeMap_kosarajuScc :
    ∃ f : Fin n → Fin (kosarajuScc G.view).length,
      ∀ v, nodeMap (kosarajuScc G.view) v = some (f v) ∧ v ∈ (kosarajuScc G.view).get (f v) := by
  obtain ⟨_, _, _, hall⟩ := kosarajuScc_inv G.view
  have h : ∀ v, ∃ k, v ∈ (kosarajuScc G.view).get k := fun v => by
    obtain ⟨c, hc, hv⟩ := List.mem_flatten.1 (hall v)
    obtain ⟨k, rfl⟩ := List.mem_iff_get.1 hc
    exact ⟨k, hv⟩
  choose f hf using h
  exact ⟨f, fun v => ⟨(nodeMap_kosarajuScc G).2 (hf v), hf v⟩⟩

/-- The weight loop loses and repeats nothing: the weight lists of the result, end to end,
are the node weights of `g` in some order. -/
theorem condensation_weights_perm (makeAcyclic : Bool) :
    ((List.finRange (kosarajuScc G.view).length).flatMap
      (condensation G makeAcyclic).nodeWeight).Perm ((List.finRange n).map G.nodeWeight) := by
  obtain ⟨_, _, I, -⟩ := kosarajuScc_inv G.view
  obtain ⟨f, hf⟩ := exists_nodeMap_kosarajuScc G
  set comp := fun k : Fin (kosarajuScc G.view).length =>
    (List.finRange n).filter (· ∈ (kosarajuScc G.view).get k)
  -- the components, end to end, list every node once
  have hperm : ((List.finRange (kosarajuScc G.view).length).flatMap comp).Perm (List.finRange n) := by
    refine (List.perm_ext_iff_of_nodup ?_ (List.nodup_finRange n)).2 fun v => ?_
    · refine List.nodup_flatMap.2 ⟨fun k _ => (List.nodup_finRange n).filter _,
        (List.nodup_finRange _).pairwise_of_forall_ne fun k _ k' _ hkk' v hv hv' => hkk' ?_⟩
      simp only [comp, List.mem_filter, decide_eq_true_eq] at hv hv'
      exact eq_of_mem_get I.nodup hv.2 hv'.2
    · simp only [comp, List.mem_flatMap, List.mem_filter, List.mem_finRange, true_and,
        decide_eq_true_eq]
      exact iff_true_intro ⟨f v, (hf v).2⟩
  have hw : (List.finRange (kosarajuScc G.view).length).flatMap (condensation G makeAcyclic).nodeWeight
      = ((List.finRange (kosarajuScc G.view).length).flatMap comp).map G.nodeWeight := by
    rw [List.map_flatMap, funext (nodeWeight_condensation G makeAcyclic)]
  rw [hw]
  exact hperm.map _

theorem condensation_directed : (condensation G true).directed = G.directed :=
  (condensedEdges_spec _ true G.edges _).2

theorem condensation_pairWeights (a b : Fin (kosarajuScc G.view).length) :
    (condensation G true).pairWeights a b =
      ((G.edges.filter fun e => a ≠ b ∧ e.source ∈ (kosarajuScc G.view).get a ∧
        e.target ∈ (kosarajuScc G.view).get b).map (·.weight)).getLast?.toList := by
  have h0 := condensedEdges_pairWeights (nodeMap (kosarajuScc G.view)) G.edges []
    ⟨G.directed, condensedWeights G (nodeMap (kosarajuScc G.view)), []⟩ (fun _ _ => rfl) a b
  rw [condensation, h0, List.nil_append, lastWeight]
  simp only [nodeMap_kosarajuScc]

variable {G}

/-- Every edge of the result stands for an edge of `g` between two distinct components. -/
theorem exists_edge_of_mem_condensation {e : GraphEdge (kosarajuScc G.view).length E}
    (he : e ∈ (condensation G true).edges) :
    ∃ e' ∈ G.edges, e.source ≠ e.target ∧ e'.source ∈ (kosarajuScc G.view).get e.source ∧
      e'.target ∈ (kosarajuScc G.view).get e.target := by
  have hw := PGraph.weight_mem_pairWeights he
  rw [condensation_pairWeights, Option.mem_toList] at hw
  obtain ⟨e', he', -⟩ := List.mem_map.1 (List.mem_of_getLast?_eq_some hw)
  obtain ⟨he', hc⟩ := List.mem_filter.1 he'
  exact ⟨e', he', by simpa using hc⟩

/-- An edge of the result goes to a component listed earlier by `kosaraju_scc`. -/
theorem condensation_target_lt {e : GraphEdge (kosarajuScc G.view).length E}
    (he : e ∈ (condensation G true).edges) : e.target < e.source := by
  obtain ⟨_, _, I, -⟩ := kosarajuScc_inv G.view
  obtain ⟨e', he', hne, hs, ht⟩ := exists_edge_of_mem_condensation he
  refine lt_of_le_of_ne (not_lt.1 fun hlt => ?_) (Ne.symm hne)
  rw [List.get_eq_getElem] at hs ht
  exact I.order _ _ e.source.2 e.target.2 hlt _ hs _ ht
    (PGraph.view_adj.2 ⟨e', he', .inl ⟨rfl, rfl⟩⟩)

/-- In an undirected graph every edge lies inside one component, so none is kept. -/
theorem condensation_edges_of_undirected (hdir : G.directed = false) :
    (condensation G true).edges = [] := by
  obtain ⟨_, _, I, -⟩ := kosarajuScc_inv G.view
  refine List.eq_nil_iff_forall_not_mem.2 fun e he => ?_
  obtain ⟨e', he', hne, hs, ht⟩ := exists_edge_of_mem_condensation he
  have hscc : G.view.SameScc e'.source e'.target :=
    ⟨.single (PGraph.view_adj.2 ⟨e', he', .inl ⟨rfl, rfl⟩⟩),
      .single (PGraph.view_adj.2 ⟨e', he', .inr ⟨hdir, rfl, rfl⟩⟩)⟩
  exact hne (eq_of_mem_get I.nodup ((I.scc _ (List.get_mem _ _ _) _ hs _).2 hscc) ht)

theorem condensation_view_acyclic : (condensation G true).view.Acyclic := by
  cases hdir : G.directed
  · intro a ha
    obtain ⟨_, hab, -⟩ := Relation.TransGen.head'_iff.1 ha
    obtain ⟨e, he, -⟩ := PGraph.view_adj.1 hab
    simp [condensation_edges_of_undirected hdir] at he
  · exact PGraph.view_acyclic ((condensation_directed G).trans hdir)
      fun _ => condensation_target_lt

end Result

/-- **`condensation(g, true)`.**  It has one node per strongly connected component: each
node of `g` lies in exactly one component of `kosaraju_scc(g)`, and the nodes of a component
are those mutually reachable with any of them.  Node `k` carries the weights of the `k`-th
component, in node order.  For each ordered pair of distinct components joined by edges of
`g`, there is exactly one edge, weighing as the last of those edges, and there are no other
edges.  Every edge goes from a higher index to a lower one, so `toposort` returns `Ok`.  An
undirected `g` leaves no edges at all. -/
theorem condensation_acyclic (G : PGraph n N E) :
    ((∀ v, ∃! k, v ∈ (kosarajuScc G.view).get k) ∧
      ∀ k, ∀ u ∈ (kosarajuScc G.view).get k, ∀ v,
        v ∈ (kosarajuScc G.view).get k ↔ G.view.SameScc u v) ∧
    (∀ k, (condensation G true).nodeWeight k =
      ((List.finRange n).filter (· ∈ (kosarajuScc G.view).get k)).map G.nodeWeight) ∧
    (∀ a b, (condensation G true).pairWeights a b =
      ((G.edges.filter fun e => a ≠ b ∧ e.source ∈ (kosarajuScc G.view).get a ∧
        e.target ∈ (kosarajuScc G.view).get b).map (·.weight)).getLast?.toList) ∧
    (∀ e ∈ (condensation G true).edges, e.target < e.source) ∧
    (∃ order, toposort (condensation G true).view none = .ok order) ∧
    (G.directed = false → (condensation G true).edges = []) := by
  obtain ⟨_, _, I, hall⟩ := kosarajuScc_inv G.view
  refine ⟨⟨fun v => ?_, fun k => I.scc _ (List.get_mem _ _ _)⟩, condensation_nodeWeight G,
    condensation_pairWeights G, fun _ => condensation_target_lt, ?_,
    condensation_edges_of_undirected⟩
  · obtain ⟨c, hc, hv⟩ := List.mem_flatten.1 (hall v)
    obtain ⟨k, rfl⟩ := List.mem_iff_get.1 hc
    exact ⟨k, hv, fun k' hk' => eq_of_mem_get I.nodup hk' hv⟩
  · rcases toposort_result (condensation G true).view with ⟨-, order, h, -⟩ | ⟨hna, -⟩
    exacts [⟨order, h⟩, absurd condensation_view_acyclic hna]

/-- **`condensation(g, make_acyclic)`, in both modes.**  It has one node per component of
`kosaraju_scc(g)` (its node indices are `0 .. sccs.len()`).  `node_map` is total, sending
each node to the component that holds it, so no entry is read at `NodeIndex::end()`.  Node
`k` carries the weights of the nodes of the `k`-th component in increasing index order, so
all weights are kept, once each.  Without `make_acyclic` the edges are those of `g`, in
order, each re-targeted through `node_map`: edge count, self-loops and parallel edges are
kept. -/
theorem condensation_spec (G : PGraph n N E) (makeAcyclic : Bool) :
    ∃ f : Fin n → Fin (kosarajuScc G.view).length,
      (∀ v, nodeMap (kosarajuScc G.view) v = some (f v) ∧ v ∈ (kosarajuScc G.view).get (f v)) ∧
      (∀ k, (condensation G makeAcyclic).nodeWeight k =
        ((List.finRange n).filter (· ∈ (kosarajuScc G.view).get k)).map G.nodeWeight) ∧
      ((List.finRange (kosarajuScc G.view).length).flatMap
        (condensation G makeAcyclic).nodeWeight).Perm ((List.finRange n).map G.nodeWeight) ∧
      (makeAcyclic = false → (condensation G makeAcyclic).edges =
        G.edges.map fun e => ⟨f e.source, f e.target, e.weight⟩) := by
  obtain ⟨f, hf⟩ := exists_nodeMap_kosarajuScc G
  refine ⟨f, hf, nodeWeight_condensation G makeAcyclic, condensation_weights_perm G makeAcyclic,
    ?_⟩
  rintro rfl
  rw [condensation, condensedEdges_false _ fun v => (hf v).1]
  rfl

end Petgraph
