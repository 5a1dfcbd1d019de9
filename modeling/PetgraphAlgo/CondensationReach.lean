import PetgraphAlgo.Condensation

/-!
# What `condensation` keeps of reachability

`condensation(g, make_acyclic)` sends every node of `g` to the node of its component through
`node_map`.  An edge of `g` either joins two nodes of one component, where it is dropped (in
acyclic mode) or becomes a self-loop, or it becomes an edge between their components; and
every edge of the result comes from one of `g`.  Since the nodes of a component reach each
other, a walk of `g` maps to a walk of the result, and a walk of the result lifts back to one
of `g` between any nodes of its end components.

So in both modes `v` is reachable from `u` in `g` exactly when `node_map[v]` is reachable
from `node_map[u]` in the result (`condensation_reach`).  The two directions are stated once,
for any map of nodes that keeps edges or merges their ends (`Graph.reach_iff_reach_map`).

What acyclic mode removes is every cycle: `kosaraju_scc` run on `condensation(g, true)` finds
each node alone in its component, so condensing a second time gives as many nodes as the first
(`condensation_kosarajuScc_singletons`).
-/

namespace Petgraph

variable {n m : ℕ} {N E : Type}

namespace Graph

section Map

variable {g : Graph n} {h : Graph m} {f : Fin n → Fin m}

/-- A walk of `g` maps to a walk of `h` when each edge of `g` either stays inside one class of
`f` or maps to an edge of `h`. -/
theorem Reach.map (hadj : ∀ x y, g.Adj x y → f x = f y ∨ h.Adj (f x) (f y)) {u v : Fin n}
    (huv : g.Reach u v) : h.Reach (f u) (f v) :=
  Relation.ReflTransGen.lift' f
    (fun x y hxy => (hadj x y hxy).elim (fun heq => heq ▸ .refl) .single) huv

/-- A walk of `h` from the class of `u` lifts to a walk of `g` from `u` to any node of the
class where it ends, when the nodes of a class reach each other and each edge of `h` comes
from an edge of `g`. -/
theorem reach_of_reach_map (hsame : ∀ x y, f x = f y → g.Reach x y)
    (hadj : ∀ a b, h.Adj a b → ∃ x y, f x = a ∧ f y = b ∧ g.Adj x y)
    {u : Fin n} {b : Fin m} (hub : h.Reach (f u) b) : ∀ v, f v = b → g.Reach u v := by
  induction hub with
  | refl => exact fun v hv => hsame u v hv.symm
  | tail _ hab ih =>
    obtain ⟨x, y, rfl, rfl, hxy⟩ := hadj _ _ hab
    exact fun v hv => ((ih x rfl).tail hxy).trans (hsame y v hv.symm)

theorem reach_iff_reach_map (hsame : ∀ x y, f x = f y → g.Reach x y)
    (hfwd : ∀ x y, g.Adj x y → f x = f y ∨ h.Adj (f x) (f y))
    (hback : ∀ a b, h.Adj a b → ∃ x y, f x = a ∧ f y = b ∧ g.Adj x y) {u v : Fin n} :
    g.Reach u v ↔ h.Reach (f u) (f v) :=
  ⟨Reach.map hfwd, fun huv => reach_of_reach_map hsame hback huv v rfl⟩

end Map

end Graph

namespace PGraph

variable {C : PGraph m N E} {a b : Fin m} {w : E}

theorem exists_edge_of_mem_pairWeights (hw : w ∈ C.pairWeights a b) :
    ∃ e ∈ C.edges, e.source = a ∧ e.target = b := by
  obtain ⟨e, he, -⟩ := List.mem_map.1 hw
  obtain ⟨he, hab⟩ := List.mem_filter.1 he
  exact ⟨e, he, by simpa using hab⟩

end PGraph

section Reach

variable {G : PGraph n N E} {f : Fin n → Fin (kosarajuScc G.view).length}

theorem condensation_directed_eq (makeAcyclic : Bool) :
    (condensation G makeAcyclic).directed = G.directed :=
  (condensedEdges_spec _ makeAcyclic G.edges _).2

/-- The nodes of one component reach each other. -/
theorem reach_of_comp_eq (hf : ∀ v, v ∈ (kosarajuScc G.view).get (f v)) {x y : Fin n}
    (hxy : f x = f y) : G.view.Reach x y := by
  obtain ⟨_, _, I, -⟩ := kosarajuScc_inv G.view
  exact ((I.scc _ (List.get_mem _ _ _) x (hf x) y).1 (hxy ▸ hf y)).1

theorem comp_eq_of_mem (hf : ∀ v, v ∈ (kosarajuScc G.view).get (f v)) {x : Fin n}
    {k : Fin (kosarajuScc G.view).length} (hx : x ∈ (kosarajuScc G.view).get k) : f x = k := by
  obtain ⟨_, _, I, -⟩ := kosarajuScc_inv G.view
  exact eq_of_mem_get I.nodup (hf x) hx

/-- Without `make_acyclic`, the edges of `g` re-targeted through `node_map`. -/
theorem condensation_false_edges
    (hf : ∀ v, nodeMap (kosarajuScc G.view) v = some (f v)) :
    (condensation G false).edges = G.edges.map fun e => ⟨f e.source, f e.target, e.weight⟩ := by
  rw [condensation, condensedEdges_false _ hf]
  rfl

/-- Without `make_acyclic`, every edge of `g` is an edge between the components of its ends. -/
theorem condensation_false_adj (hf : ∀ v, nodeMap (kosarajuScc G.view) v = some (f v))
    {x y : Fin n} (hxy : G.view.Adj x y) : (condensation G false).view.Adj (f x) (f y) := by
  obtain ⟨e, he, hxy⟩ := PGraph.view_adj.1 hxy
  refine PGraph.view_adj.2
    ⟨_, (condensation_false_edges hf).symm ▸ List.mem_map_of_mem _ he, ?_⟩
  rcases hxy with ⟨rfl, rfl⟩ | ⟨hd, rfl, rfl⟩
  exacts [.inl ⟨rfl, rfl⟩, .inr ⟨(condensation_directed_eq false).trans hd, rfl, rfl⟩]

/-- Without `make_acyclic`, every edge of the result comes from an edge of `g`. -/
theorem exists_adj_of_condensation_false_adj
    (hf : ∀ v, nodeMap (kosarajuScc G.view) v = some (f v))
    {a b : Fin (kosarajuScc G.view).length} (hab : (condensation G false).view.Adj a b) :
    ∃ x y, f x = a ∧ f y = b ∧ G.view.Adj x y := by
  obtain ⟨e, he, hab⟩ := PGraph.view_adj.1 hab
  rw [condensation_false_edges hf] at he
  obtain ⟨e', he', rfl⟩ := List.mem_map.1 he
  rcases hab with ⟨rfl, rfl⟩ | ⟨hd, rfl, rfl⟩
  · exact ⟨_, _, rfl, rfl, PGraph.view_adj.2 ⟨e', he', .inl ⟨rfl, rfl⟩⟩⟩
  · exact ⟨_, _, rfl, rfl, PGraph.view_adj.2
      ⟨e', he', .inr ⟨(condensation_directed_eq false).symm.trans hd, rfl, rfl⟩⟩⟩

/-- With `make_acyclic`, an edge of `g` stays inside a component, or is an edge between the
components of its ends. -/
theorem condensation_true_adj (hf : ∀ v, v ∈ (kosarajuScc G.view).get (f v)) {x y : Fin n}
    (hxy : G.view.Adj x y) : f x = f y ∨ (condensation G true).view.Adj (f x) (f y) := by
  obtain ⟨e, he, hxy'⟩ := PGraph.view_adj.1 hxy
  refine or_iff_not_imp_left.2 fun hne => ?_
  rcases hxy' with ⟨rfl, rfl⟩ | ⟨hd, rfl, rfl⟩
  · -- the edge is among those the last of which `update_edge` keeps for the pair
    have hmem : e.weight ∈ (G.edges.filter fun e' => f e.source ≠ f e.target ∧
        e'.source ∈ (kosarajuScc G.view).get (f e.source) ∧
        e'.target ∈ (kosarajuScc G.view).get (f e.target)).map (·.weight) :=
      List.mem_map_of_mem _ (List.mem_filter.2 ⟨he, decide_eq_true ⟨hne, hf _, hf _⟩⟩)
    obtain ⟨w, hlast⟩ :=
      Option.isSome_iff_exists.1 (List.getLast?_isSome.2 (List.ne_nil_of_mem hmem))
    have hw : w ∈ (condensation G true).pairWeights (f e.source) (f e.target) := by
      rw [condensation_pairWeights, hlast]
      exact List.mem_singleton_self w
    obtain ⟨e', he', hs, ht⟩ := PGraph.exists_edge_of_mem_pairWeights hw
    exact PGraph.view_adj.2 ⟨e', he', .inl ⟨hs, ht⟩⟩
  · -- an undirected edge joins two nodes of one component
    obtain ⟨_, _, I, -⟩ := kosarajuScc_inv G.view
    have hscc : G.view.SameScc e.target e.source :=
      ⟨.single hxy, .single (PGraph.view_adj.2 ⟨e, he, .inl ⟨rfl, rfl⟩⟩)⟩
    exact absurd (comp_eq_of_mem hf ((I.scc _ (List.get_mem _ _ _) _ (hf e.target) _).2 hscc)).symm
      hne

/-- With `make_acyclic`, every edge of the result comes from an edge of `g`. -/
theorem exists_adj_of_condensation_true_adj (hf : ∀ v, v ∈ (kosarajuScc G.view).get (f v))
    {a b : Fin (kosarajuScc G.view).length} (hab : (condensation G true).view.Adj a b) :
    ∃ x y, f x = a ∧ f y = b ∧ G.view.Adj x y := by
  obtain ⟨e, he, hab⟩ := PGraph.view_adj.1 hab
  obtain ⟨e', he', -, hs, ht⟩ := exists_edge_of_mem_condensation he
  rcases hab with ⟨rfl, rfl⟩ | ⟨hd, rfl, rfl⟩
  · exact ⟨_, _, comp_eq_of_mem hf hs, comp_eq_of_mem hf ht,
      PGraph.view_adj.2 ⟨e', he', .inl ⟨rfl, rfl⟩⟩⟩
  · exact ⟨_, _, comp_eq_of_mem hf ht, comp_eq_of_mem hf hs, PGraph.view_adj.2
      ⟨e', he', .inr ⟨(condensation_directed_eq true).symm.trans hd, rfl, rfl⟩⟩⟩

end Reach

/-- **Condensation keeps reachability.**  In both modes `node_map` sends every node of `g` to
a node of the result, and `v` is reachable from `u` in `g` exactly when `node_map[v]` is
reachable from `node_map[u]` in `condensation(g, make_acyclic)`. -/
theorem condensation_reach (G : PGraph n N E) (makeAcyclic : Bool) :
    ∃ f : Fin n → Fin (kosarajuScc G.view).length,
      (∀ v, nodeMap (kosarajuScc G.view) v = some (f v)) ∧
      ∀ u v, G.view.Reach u v ↔ (condensation G makeAcyclic).view.Reach (f u) (f v) := by
  obtain ⟨f, hf⟩ := exists_nodeMap_kosarajuScc G
  have hmem : ∀ v, v ∈ (kosarajuScc G.view).get (f v) := fun v => (hf v).2
  refine ⟨f, fun v => (hf v).1, fun u v => Graph.reach_iff_reach_map
    (fun _ _ => reach_of_comp_eq hmem) ?_ ?_⟩ <;> cases makeAcyclic
  · exact fun _ _ hxy => .inr (condensation_false_adj (fun v => (hf v).1) hxy)
  · exact fun _ _ => condensation_true_adj hmem
  · exact fun _ _ => exists_adj_of_condensation_false_adj fun v => (hf v).1
  · exact fun _ _ => exists_adj_of_condensation_true_adj hmem

/-- In an acyclic graph every component of `kosaraju_scc` is a single node. -/
theorem kosarajuScc_singleton_of_acyclic {g : Graph m} (hg : g.Acyclic) :
    ∀ c ∈ kosarajuScc g, ∃ k, c = [k] := by
  obtain ⟨_, _, I, -⟩ := kosarajuScc_inv g
  intro c hc
  obtain ⟨k, hk⟩ := List.exists_mem_of_ne_nil c (kosarajuScc_ne_nil g c hc)
  have hrep : c = List.replicate c.length k := List.eq_replicate_iff.2
    ⟨rfl, fun v hv => (hg.eq_of_sameScc ((I.scc c hc k hk v).1 hv)).symm⟩
  have hnd : c.Nodup := I.nodup.sublist (List.sublist_flatten_of_mem hc)
  rw [hrep, List.nodup_replicate] at hnd
  have hlen : c.length = 1 := le_antisymm hnd (List.length_pos_of_mem hk)
  exact ⟨k, hrep.trans (by rw [hlen]; rfl)⟩

/-- With every component a single node, there are as many components as nodes. -/
theorem kosarajuScc_length_of_singletons {g : Graph m}
    (h : ∀ c ∈ kosarajuScc g, ∃ k, c = [k]) : (kosarajuScc g).length = m := by
  obtain ⟨_, _, I, hall⟩ := kosarajuScc_inv g
  have hperm : (kosarajuScc g).flatten.Perm (List.finRange m) :=
    (List.perm_ext_iff_of_nodup I.nodup (List.nodup_finRange m)).2 fun v =>
      iff_of_true (hall v) (List.mem_finRange v)
  have hones : (kosarajuScc g).map List.length = (kosarajuScc g).map fun _ => 1 :=
    List.map_congr_left fun c hc => by obtain ⟨k, rfl⟩ := h c hc; rfl
  calc (kosarajuScc g).length = ((kosarajuScc g).map List.length).sum := by simp [hones]
    _ = (kosarajuScc g).flatten.length := (List.length_flatten _).symm
    _ = m := hperm.length_eq.trans (List.length_finRange m)

/-- **Condensing twice.**  `kosaraju_scc` run on `condensation(g, true)` finds every node
alone in its component, so `condensation(condensation(g, true), true)` has as many nodes as
`condensation(g, true)`. -/
theorem condensation_kosarajuScc_singletons (G : PGraph n N E) :
    (∀ c ∈ kosarajuScc (condensation G true).view, ∃ k, c = [k]) ∧
      (kosarajuScc (condensation G true).view).length = (kosarajuScc G.view).length :=
  have h := kosarajuScc_singleton_of_acyclic condensation_view_acyclic
  ⟨h, kosarajuScc_length_of_singletons h⟩

end Petgraph
