import PetgraphAlgo.Network
import PetgraphAlgo.UnionFind

/-!
# `min_spanning_tree`

`min_spanning_tree(g)` of `src/algo/mod.rs` and its iterator `MinSpanningTree::next`.  The
iterator first yields one `Element::Node` per entry of `node_references()`, recording in
`node_map` the position at which each node index was yielded.  It then runs Kruskal's loop:
it pops the edges from the heap `sort_edges` by non-decreasing weight, and yields an
`Element::Edge`, between the positions of the endpoints, for each edge whose endpoints
`union` finds in two different subgraphs.  An endpoint missing from `node_map` panics with
"Edge references unknown node".

The graph is seen through `node_references()`, `edge_references()` and the dense indices of
`NodeIndexable` (`to_index` is the identity on `Fin n`, `n` being `node_bound()`); node
indices below the bound that `node_references()` does not list are holes.  The heap is
`BinaryHeap<MinScored<..>>`: it pops a greatest element, and `MinScored` orders by score
reversed, so the edges come out by non-decreasing weight, ties in an order of the heap's.
The model takes that order as an argument (`PopOrder`), every result holding for all of them.
-/

namespace Petgraph

variable {n : ℕ} {N E : Type}

/-- A graph as `min_spanning_tree` sees it. -/
structure RefGraph (n : ℕ) (N E : Type) where
  /-- `node_references()`: node index and weight, in iteration order. -/
  nodeRefs : List (Fin n × N)
  /-- `edge_references()`. -/
  edgeRefs : List (EdgeRef n E)
  nodup_ids : (nodeRefs.map Prod.fst).Nodup
  source_mem : ∀ e ∈ edgeRefs, e.source ∈ nodeRefs.map Prod.fst
  target_mem : ∀ e ∈ edgeRefs, e.target ∈ nodeRefs.map Prod.fst

/-- `Element<N, E>`: the items `min_spanning_tree` yields, as `from_elements` reads them. -/
inductive Element (N E : Type) where
  | node (weight : N)
  | edge (source target : ℕ) (weight : E)
  deriving DecidableEq, Repr

/-- An order in which `sort_edges.pop()` may yield the edges pushed into it: all of them, by
non-decreasing weight. -/
structure PopOrder [LE E] (edges : List (EdgeRef n E)) where
  order : List (EdgeRef n E)
  perm : order.Perm edges
  sorted : order.Pairwise fun e f => e.weight ≤ f.weight

/-- `MinSpanningTree<G>`.  The field `graph` is left out: the model reads the graph only
through `node_ids` and `sort_edges`. -/
structure MinSpanningTree (n : ℕ) (N E : Type) where
  /-- `node_ids`: the node references not yet yielded, `None` once they are done. -/
  nodeIds : Option (List (Fin n × N))
  subgraphs : UnionFind n
  /-- `sort_edges`, in the order it pops. -/
  sortEdges : List (EdgeRef n E)
  /-- `node_map`: the position at which each node index was yielded. -/
  nodeMap : Fin n → Option ℕ
  nodeCount : ℕ

namespace MinSpanningTree

/-- The `while let Some(..) = self.sort_edges.pop()` loop of `next`: pop edges until one
joins two subgraphs, and yield it between the positions of its endpoints. -/
def popEdge (nodeMap : Fin n → Option ℕ) : UnionFind n → List (EdgeRef n E) →
    Except String (Option (Element N E) × UnionFind n × List (EdgeRef n E))
  | subgraphs, [] => .ok (none, subgraphs, [])
  | subgraphs, e :: sortEdges =>
    match subgraphs.union e.source e.target with
    | (true, subgraphs) =>
      match nodeMap e.source, nodeMap e.target with
      | some aOrder, some bOrder => .ok (some (.edge aOrder bOrder e.weight), subgraphs, sortEdges)
      | _, _ => .error "Edge references unknown node"
    | (false, subgraphs) => popEdge nodeMap subgraphs sortEdges

/-- `next()`: the next node reference while there is one, then the next edge of the forest. -/
def next (it : MinSpanningTree n N E) :
    Except String (Option (Element N E) × MinSpanningTree n N E) :=
  match it.nodeIds with
  | some (node :: nodeIds) =>
    .ok (some (.node node.2), { it with
      nodeIds := some nodeIds
      nodeMap := Function.update it.nodeMap node.1 (some it.nodeCount)
      nodeCount := it.nodeCount + 1 })
  | _ =>
    (popEdge it.nodeMap it.subgraphs it.sortEdges).map fun (r, subgraphs, sortEdges) =>
      (r, { it with nodeIds := none, subgraphs := subgraphs, sortEdges := sortEdges })

/-- The items `it` yields before its first `None`, calling `next()` at most `fuel` times. -/
def collect : ℕ → MinSpanningTree n N E → Except String (List (Element N E))
  | 0, _ => .ok []
  | fuel + 1, it =>
    match it.next with
    | .error msg => .error msg
    | .ok (none, _) => .ok []
    | .ok (some x, it) => (collect fuel it).map (x :: ·)

section lemmas

variable {m : Fin n → Option ℕ} {u : UnionFind n} {e : EdgeRef n E} {L : List (EdgeRef n E)}
  {it : MinSpanningTree n N E}

theorem popEdge_nil : popEdge (N := N) (E := E) m u [] = .ok (none, u, []) := rfl

/-- An edge that merges two subgraphs is yielded. -/
theorem popEdge_cons_of_merge {a b : ℕ} (h : (u.union e.source e.target).1 = true)
    (ha : m e.source = some a) (hb : m e.target = some b) :
    popEdge (N := N) m u (e :: L) =
      .ok (some (.edge a b e.weight), (u.union e.source e.target).2, L) := by
  rcases hu : u.union e.source e.target with ⟨_ | _, u'⟩
  · simp [hu] at h
  · simp [popEdge, hu, ha, hb]

/-- An edge inside one subgraph is dropped. -/
theorem popEdge_cons_of_eq (h : u.rep e.source = u.rep e.target) :
    popEdge (N := N) m u (e :: L) = popEdge m u L := by
  simp [popEdge, UnionFind.union_of_eq h]

theorem next_of_nodeIds_cons {node : Fin n × N} {rest : List (Fin n × N)}
    (h : it.nodeIds = some (node :: rest)) :
    it.next = .ok (some (.node node.2), { it with
      nodeIds := some rest
      nodeMap := Function.update it.nodeMap node.1 (some it.nodeCount)
      nodeCount := it.nodeCount + 1 }) := by
  simp [next, h]

/-- Once the node references are done, `next()` runs the loop over the heap. -/
theorem next_of_nodeIds_done (h : it.nodeIds.getD [] = []) :
    it.next = (popEdge it.nodeMap it.subgraphs it.sortEdges).map fun (r, subgraphs, sortEdges) =>
      (r, { it with nodeIds := none, subgraphs := subgraphs, sortEdges := sortEdges }) := by
  unfold next
  rcases hn : it.nodeIds with _ | _ | _
  · rfl
  · rfl
  · simp [hn] at h

theorem collect_succ_congr {it' : MinSpanningTree n N E} {fuel : ℕ} (h : it.next = it'.next) :
    it.collect (fuel + 1) = it'.collect (fuel + 1) := by
  simp only [collect, h]

end lemmas

end MinSpanningTree

/-- `min_spanning_tree(g)`, its heap popping in the order `order`. -/
def minSpanningTree [LE E] (g : RefGraph n N E) (order : PopOrder g.edgeRefs) :
    MinSpanningTree n N E where
  nodeIds := some g.nodeRefs
  subgraphs := UnionFind.new
  sortEdges := order.order
  nodeMap := fun _ => none
  nodeCount := 0

/-- What iterating `min_spanning_tree(g)` to its end yields: each call of `next()` yields a
node, pops an edge or ends, so one more call than there are nodes and edges suffices. -/
def minSpanningTreeElements [LE E] (g : RefGraph n N E) (order : PopOrder g.edgeRefs) :
    Except String (List (Element N E)) :=
  (minSpanningTree g order).collect (g.nodeRefs.length + g.edgeRefs.length + 1)

end Petgraph
