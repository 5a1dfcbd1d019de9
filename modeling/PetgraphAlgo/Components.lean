import PetgraphAlgo.MinSpanningTreeSpec
import PetgraphAlgo.Condensation
import Mathlib.Data.List.Destutter

/-!
# `connected_components` and `is_cyclic_undirected`

Both functions (`src/algo/mod.rs`) run `union` on the ends of every edge of
`edge_references()`, in order, over a `UnionFind::new(node_bound())`.  `connected_components`
then counts the labels of `into_labeling()` after `sort` and `dedup`; `is_cyclic_undirected`
returns `true` at the first `union` that merges nothing.

The loop is `unionAll` of `MinSpanningTreeSpec`, and the edges whose `union` merges two sets
are `kruskalSelect`.  The sets are the classes of `Joined`, connectivity with every edge read
both ways, and each merge removes one set.

* `length_destutter_mergeSort`: `sort` then `dedup` keeps each value once.
* `connectedComponents_spec`: `connected_components` counts the classes of `Joined`, the
  weakly connected components; on an undirected graph these are the components of
  `kosaraju_scc`.
* `isCyclicUndirected_spec`: `is_cyclic_undirected` tells whether the edges, read as an
  undirected multigraph, hold a cycle, that is whether there are more edges than nodes less
  components.
-/

namespace Petgraph

variable {n : ℕ} {N E : Type}

/-! ## `sort` and `dedup` -/

section dedup

variable {α : Type} [DecidableEq α]

/-- `Vec::dedup` drops an element only when it equals the one kept before it, so every value
stays. -/
theorem mem_destutter'_ne (x : α) : ∀ (l : List α) (a : α),
    x ∈ l.destutter' (· ≠ ·) a ↔ x = a ∨ x ∈ l
  | [], a => by simp [List.destutter'_nil]
  | b :: l, a => by
    rw [List.destutter'_cons]
    split_ifs with hab
    · rw [List.mem_cons, mem_destutter'_ne x l b, List.mem_cons]
    · rw [not_not] at hab
      subst hab
      rw [mem_destutter'_ne x l a]
      simp

variable [LinearOrder α]

/-- On a sorted list `Vec::dedup` leaves a strictly increasing one. -/
theorem sorted_destutter'_ne : ∀ (l : List α) (a : α), (a :: l).Sorted (· ≤ ·) →
    (l.destutter' (· ≠ ·) a).Sorted (· < ·)
  | [], a, _ => List.sorted_singleton a
  | b :: l, a, h => by
    have hab : a ≤ b := List.rel_of_sorted_cons h b (List.mem_cons_self b l)
    have hbl : (b :: l).Sorted (· ≤ ·) := h.of_cons
    rw [List.destutter'_cons]
    split_ifs with hba
    · refine List.sorted_cons.2 ⟨fun y hy => ?_, sorted_destutter'_ne l b hbl⟩
      rcases (mem_destutter'_ne y l b).1 hy with rfl | hy
      · exact lt_of_le_of_ne hab hba
      · exact lt_of_lt_of_le (lt_of_le_of_ne hab hba) (List.rel_of_sorted_cons hbl y hy)
    · rw [not_not] at hba
      subst hba
      exact sorted_destutter'_ne l a hbl

/-- `sort` by a comparison deciding `≤`, then `dedup`, keeps each value of `l` once. -/
theorem length_destutter_mergeSort (l : List α) {le : α → α → Bool}
    (hle : ∀ a b, le a b = true ↔ a ≤ b) :
    ((l.mergeSort le).destutter (· ≠ ·)).length = l.toFinset.card := by
  have hs : (l.mergeSort le).Pairwise fun a b => le a b = true :=
    List.sorted_mergeSort (fun a b c h₁ h₂ => (hle a c).2 (((hle a b).1 h₁).trans ((hle b c).1 h₂)))
      (fun a b => by simp [hle, le_total]) l
  have hmem : ∀ x, x ∈ l.mergeSort le ↔ x ∈ l := fun _ => List.mem_mergeSort
  cases hsl : l.mergeSort le with
  | nil =>
    have hl : l = [] := List.eq_nil_iff_forall_not_mem.2 fun x hx => by
      simpa [hsl] using (hmem x).2 hx
    subst hl
    rfl
  | cons a t =>
    rw [hsl] at hs hmem
    have hnd := (sorted_destutter'_ne t a (hs.imp (hle _ _).1)).nodup
    rw [List.destutter_cons', ← List.toFinset_card_of_nodup hnd]
    congr 1
    ext x
    rw [List.mem_toFinset, List.mem_toFinset, mem_destutter'_ne, ← List.mem_cons, hmem]

end dedup

/-! ## The functions -/

/-- `connected_components(g)`, reading `g` through `node_bound()` (the `n` of `Fin n`) and
`edge_references()`: union the ends of every edge, then sort the labels, `dedup` them and
count them. -/
def connectedComponents (edges : List (EdgeRef n E)) : ℕ :=
  let vertexSets := unionAll UnionFind.new edges
  let labels := vertexSets.intoLabeling.mergeSort fun a b => decide (a ≤ b)
  (labels.destutter (· ≠ ·)).length

/-- `is_cyclic_undirected(g)`: `true` at the first edge whose `union` merges nothing. -/
def isCyclicUndirected (edges : List (EdgeRef n E)) : Bool :=
  loop UnionFind.new edges
where
  /-- The loop over `edge_references()`, with the sets built so far. -/
  loop : UnionFind n → List (EdgeRef n E) → Bool
    | _, [] => false
    | edgeSets, e :: es =>
      if !(edgeSets.union e.source e.target).1 then true
      else loop (edgeSets.union e.source e.target).2 es

/-- Modelled from the spec: `edge_references()` of a `Graph`, edge `i` with its ends and
weight. -/
def PGraph.edgeReferences (G : PGraph n N E) : List (EdgeRef n E) :=
  G.edges.enum.map fun p => ⟨p.1, p.2.source, p.2.target, p.2.weight⟩

/-! ## Counting the sets -/

/-- The labels are counted: one per set. -/
theorem connectedComponents_eq_classes (edges : List (EdgeRef n E)) :
    connectedComponents edges = (unionAll UnionFind.new edges).classes := by
  rw [connectedComponents, length_destutter_mergeSort _ fun a b => decide_eq_true_iff,
    UnionFind.card_toFinset_intoLabeling]

/-- A `UnionFind` holding the classes of `Joined F` has one set per class. -/
theorem Represents.classes_eq_card {u : UnionFind n} {F : List (EdgeRef n E)}
    (hu : Represents u F) :
    u.classes = (Finset.univ.image fun v => Finset.univ.filter (Joined F v)).card := by
  -- the class of a node is the class of its representative
  have hφ : (Finset.univ.image u.rep).image (fun r => Finset.univ.filter (Joined F r)) =
      Finset.univ.image fun v => Finset.univ.filter (Joined F v) := by
    rw [Finset.image_image]
    refine Finset.image_congr fun v _ => Finset.filter_congr fun w _ => ?_
    exact ⟨(hu.joined_rep v).trans, (hu.joined_rep v).symm.trans⟩
  -- and two representatives with one class are one
  rw [UnionFind.classes, ← hφ]
  refine (Finset.card_image_of_injOn fun r hr r' hr' h => ?_).symm
  obtain ⟨v, -, rfl⟩ := Finset.mem_image.1 hr
  obtain ⟨v', -, rfl⟩ := Finset.mem_image.1 hr'
  have hmem : u.rep v' ∈ Finset.univ.filter (Joined F (u.rep v)) := by
    simp only at h; rw [h]; exact Finset.mem_filter.2 ⟨Finset.mem_univ _, .refl _ _⟩
  rw [← u.rep_rep v, ← u.rep_rep v']
  exact (hu _ _).2 (Finset.mem_filter.1 hmem).2

/-- Lists without common element, none empty, each a class of `R` and together holding every
node, are as many as the classes. -/
theorem length_eq_card_classes {R : Fin n → Fin n → Prop} [DecidableRel R]
    {sccs : List (List (Fin n))} (hnd : sccs.flatten.Nodup) (hne : ∀ c ∈ sccs, c ≠ [])
    (hall : ∀ v, v ∈ sccs.flatten) (hcls : ∀ c ∈ sccs, ∀ u ∈ c, ∀ v, v ∈ c ↔ R u v) :
    sccs.length = (Finset.univ.image fun v => Finset.univ.filter (R v)).card := by
  have hclass : ∀ k, ∀ u ∈ sccs.get k, (sccs.get k).toFinset = Finset.univ.filter (R u) :=
    fun k u hu => by
      ext v
      rw [List.mem_toFinset, Finset.mem_filter]
      exact (hcls _ (List.get_mem _ _ _) u hu v).trans (and_iff_right (Finset.mem_univ v)).symm
  have himage : (Finset.univ.image fun k => (sccs.get k).toFinset) =
      Finset.univ.image fun v => Finset.univ.filter (R v) := by
    ext S
    simp only [Finset.mem_image, Finset.mem_univ, true_and]
    constructor
    · rintro ⟨k, rfl⟩
      obtain ⟨u, hu⟩ := List.exists_mem_of_ne_nil _ (hne _ (List.get_mem _ _ _))
      exact ⟨u, (hclass k u hu).symm⟩
    · rintro ⟨v, rfl⟩
      obtain ⟨c, hc, hv⟩ := List.mem_flatten.1 (hall v)
      obtain ⟨k, rfl⟩ := List.mem_iff_get.1 hc
      exact ⟨k, hclass k v hv⟩
  rw [← himage, Finset.card_image_of_injective, Finset.card_univ, Fintype.card_fin]
  intro k k' h
  obtain ⟨u, hu⟩ := List.exists_mem_of_ne_nil _ (hne _ (List.get_mem _ _ _))
  have hu' : u ∈ sccs.get k' := by
    rw [← List.mem_toFinset]; simp only at h; rw [← h]; exact List.mem_toFinset.2 hu
  exact eq_of_mem_get hnd hu hu'

/-- The count is the number of classes of `Joined`. -/
theorem connectedComponents_eq_card (edges : List (EdgeRef n E)) :
    connectedComponents edges =
      (Finset.univ.image fun v => Finset.univ.filter (Joined edges v)).card :=
  (connectedComponents_eq_classes edges).trans (represents_unionAll_new edges).classes_eq_card

namespace PGraph

variable {G : PGraph n N E}

/-- `edge_references()` has an edge from `a` to `b` when `g` has one. -/
theorem exists_edgeReferences (P : Fin n → Fin n → Prop) :
    (∃ e ∈ G.edgeReferences, P e.source e.target) ↔ ∃ e ∈ G.edges, P e.source e.target := by
  simp only [edgeReferences, List.mem_map, Prod.exists]
  constructor
  · rintro ⟨_, ⟨i, e, he, rfl⟩, h⟩
    exact ⟨e, List.snd_mem_of_mem_enum he, h⟩
  · rintro ⟨e, he, h⟩
    obtain ⟨i, hi⟩ := List.mem_iff_get.1 he
    exact ⟨_, ⟨i, e, List.mem_enum_iff_getElem?.2 (by simp [← hi]), rfl⟩, h⟩

/-- In an undirected graph, two nodes are joined by the edges exactly when each reaches the
other. -/
theorem joined_iff_sameScc (hdir : G.directed = false) {a b : Fin n} :
    Joined G.edgeReferences a b ↔ G.view.SameScc a b := by
  have hjoin : ∀ e ∈ G.edges, Joined G.edgeReferences e.source e.target := fun e he =>
    .rel _ _ ((exists_edgeReferences fun x y => x = e.source ∧ y = e.target).2 ⟨e, he, rfl, rfl⟩)
  constructor
  · intro h
    induction h with
    | rel x y hxy =>
      obtain ⟨e, he, rfl, rfl⟩ := (exists_edgeReferences fun s t => s = x ∧ t = y).1 hxy
      exact ⟨.single (view_adj.2 ⟨e, he, .inl ⟨rfl, rfl⟩⟩),
        .single (view_adj.2 ⟨e, he, .inr ⟨hdir, rfl, rfl⟩⟩)⟩
    | refl => exact .refl _
    | symm _ _ _ ih => exact ih.symm
    | trans _ _ _ _ _ ih₁ ih₂ => exact ih₁.trans ih₂
  · rintro ⟨hab, -⟩
    induction hab with
    | refl => exact .refl _ _
    | tail _ hyz ih =>
      obtain ⟨e, he, ⟨rfl, rfl⟩ | ⟨-, rfl, rfl⟩⟩ := view_adj.1 hyz
      exacts [ih.trans (hjoin e he), ih.trans (hjoin e he).symm]

end PGraph

/-- On an undirected graph the weakly connected components are the components of
`kosaraju_scc`. -/
theorem connectedComponents_eq_length_kosarajuScc (G : PGraph n N E) (hdir : G.directed = false) :
    connectedComponents G.edgeReferences = (kosarajuScc G.view).length := by
  obtain ⟨_, _, I, hall⟩ := kosarajuScc_inv G.view
  rw [connectedComponents_eq_card, length_eq_card_classes I.nodup (kosarajuScc_ne_nil G.view) hall
    fun c hc u hu v => (I.scc c hc u hu v).trans (PGraph.joined_iff_sameScc hdir).symm]

/-- **`connected_components` counts the weakly connected components.**  For every list of edge
references over the node indices `0 .. n`, it is the number of classes of the smallest
equivalence relation relating the ends of every edge.  On an undirected `Graph` it is the
number of components `kosaraju_scc` returns. -/
theorem connectedComponents_spec :
    (∀ edges : List (EdgeRef n E), connectedComponents edges =
      (Finset.univ.image fun v => Finset.univ.filter (Joined edges v)).card) ∧
    ∀ G : PGraph n N E, G.directed = false →
      connectedComponents G.edgeReferences = (kosarajuScc G.view).length :=
  ⟨connectedComponents_eq_card, connectedComponents_eq_length_kosarajuScc⟩

/-- One undirected edge between two nodes. -/
def pathPGraph : PGraph 2 Unit Unit := ⟨false, fun _ => (), [⟨0, 1, ()⟩]⟩

theorem connectedComponents_pathPGraph :
    pathPGraph.directed = false ∧
      connectedComponents pathPGraph.edgeReferences = (kosarajuScc pathPGraph.view).length :=
  ⟨rfl, connectedComponents_spec.2 pathPGraph rfl⟩

/-! ## The cycle test -/

/-- The loop answers `true` exactly when `union` merges nothing at some edge: when Kruskal's
selection drops an edge. -/
theorem isCyclicUndirected_loop_iff : ∀ (u : UnionFind n) (L : List (EdgeRef n E)),
    isCyclicUndirected.loop u L = true ↔ kruskalSelect u L ≠ L
  | _, [] => by simp [isCyclicUndirected.loop, kruskalSelect]
  | u, e :: L => by
    by_cases hm : (u.union e.source e.target).1 = true
    · simp only [isCyclicUndirected.loop, kruskalSelect, hm, if_true, Bool.not_true, ne_eq,
        List.cons.injEq, true_and]
      exact isCyclicUndirected_loop_iff _ L
    · -- the edge is dropped, so the selection is shorter than the edges
      have hlen := (kruskalSelect_sublist (u.union e.source e.target).2 L).length_le
      rw [Bool.not_eq_true] at hm
      simp only [isCyclicUndirected.loop, kruskalSelect, hm, Bool.not_false, if_true,
        Bool.false_eq_true, if_false, true_iff]
      exact fun h => absurd (h ▸ hlen) (by simp)

section forests

variable [DecidableEq E]

/-- Kruskal's selection keeps every edge exactly when the edges hold no cycle. -/
theorem kruskalSelect_new_eq_iff {F : List (EdgeRef n E)} :
    kruskalSelect UnionFind.new F = F ↔ Acyclic F :=
  ⟨fun h => h ▸ acyclic_kruskalSelect F, Acyclic.kruskalSelect_eq⟩

/-- **`is_cyclic_undirected` finds the cycles of the multigraph.**  For every list of edge
references, it answers `true` exactly when the edges, read both ways, self-loops and parallel
edges included, are not a forest: some edge has its ends joined by the others.  Equivalently,
there are more edges than nodes less the components `connected_components` counts. -/
theorem isCyclicUndirected_spec (edges : List (EdgeRef n E)) :
    (isCyclicUndirected edges = true ↔ ¬ Acyclic edges) ∧
      (isCyclicUndirected edges = true ↔ n - connectedComponents edges < edges.length) := by
  have hloop := isCyclicUndirected_loop_iff UnionFind.new edges
  have hsub := kruskalSelect_sublist UnionFind.new edges
  have hc := classes_unionAll_new edges
  rw [← connectedComponents_eq_classes] at hc
  refine ⟨hloop.trans (not_congr kruskalSelect_new_eq_iff), hloop.trans ⟨fun hne => ?_, ?_⟩⟩
  · have hle := hsub.length_le
    have hne' : (kruskalSelect UnionFind.new edges).length ≠ edges.length := fun h =>
      hne (hsub.eq_of_length h)
    omega
  · intro hlt heq
    rw [heq] at hc
    omega

end forests

end Petgraph
