import PetgraphAlgo.MinSpanningTree
import Mathlib.Algebra.Order.BigOperators.Group.List
import Mathlib.Data.List.Forall2

/-!
# `min_spanning_tree` is correct

The edges of the forest are the edges of the pop order whose `union` merges two sets
(`kruskalSelect`).  A `UnionFind` that has seen the edges `F` has for its sets the classes of
`Joined F`, connectivity with every edge read both ways (`Represents`).  A merge removes one
set, so a list of edges leaves as many sets as nodes, less the number of merges.  This gives
the size of every forest: a list without cycle merges at each edge, and a spanning forest has
the sets of the whole graph.

Minimality is Gale's argument.  Let the forest Kruskal keeps be `K` and another spanning forest,
sorted by weight, be `F`.  If the `i`-th edge of `F` were lighter than the `i`-th edge of `K`,
the first `i + 1` edges of `F` would have fewer sets than the first `i` edges of `K`.  So one
of them would join two sets of those `i` edges.  It is lighter than the `i`-th edge of `K`,
so it was popped before it, and Kruskal would have merged it.

Main results:
* `acyclic_kruskalSelect`, `Acyclic.classes`: what Kruskal keeps holds no cycle, and a list
  without cycle leaves `n - length` sets;
* `RefGraph.IsSpanningForest.length_eq`: every spanning forest has as many edges as nodes, less
  the components;
* `kruskalSelect_getElem_le`: Gale's comparison, edge by edge;
* `minSpanningTreeElements_eq`: the iterator yields the nodes, then the edges Kruskal keeps;
* `minSpanningTree_spec`: the items `min_spanning_tree` yields.
-/

namespace Petgraph

variable {n : ℕ} {E : Type}

/-! ## Connectivity of a list of edges -/

/-- `a` and `b` are joined by the edges `F`, each read in both directions. -/
def Joined (F : List (EdgeRef n E)) : Fin n → Fin n → Prop :=
  Relation.EqvGen fun a b => ∃ e ∈ F, e.source = a ∧ e.target = b

section joined

variable {F F' : List (EdgeRef n E)} {a b c : Fin n} {e : EdgeRef n E}

theorem joined_of_mem (he : e ∈ F) : Joined F e.source e.target := .rel _ _ ⟨e, he, rfl, rfl⟩

theorem Joined.refl (F : List (EdgeRef n E)) (a : Fin n) : Joined F a a := .refl a

theorem Joined.symm (h : Joined F a b) : Joined F b a := .symm _ _ h

theorem Joined.trans (h₁ : Joined F a b) (h₂ : Joined F b c) : Joined F a c := .trans _ _ _ h₁ h₂

/-- What the edges of `F` join, a list joining the endpoints of each of them joins. -/
theorem Joined.of_forall (h : ∀ e ∈ F, Joined F' e.source e.target) (hab : Joined F a b) :
    Joined F' a b := by
  induction hab with
  | rel x y hxy =>
    obtain ⟨e, he, rfl, rfl⟩ := hxy
    exact h e he
  | refl => exact .refl _ _
  | symm _ _ _ ih => exact ih.symm
  | trans _ _ _ _ _ ih₁ ih₂ => exact ih₁.trans ih₂

theorem Joined.mono (h : ∀ e ∈ F, e ∈ F') (hab : Joined F a b) : Joined F' a b :=
  hab.of_forall fun e he => joined_of_mem (h e he)

/-- Two different nodes are joined only if both are endpoints of edges. -/
theorem Joined.eq_or_endpoint (h : Joined F a b) :
    a = b ∨ ((∃ e ∈ F, e.source = a ∨ e.target = a) ∧ ∃ e ∈ F, e.source = b ∨ e.target = b) := by
  induction h with
  | rel x y hxy =>
    obtain ⟨e, he, rfl, rfl⟩ := hxy
    exact .inr ⟨⟨e, he, .inl rfl⟩, ⟨e, he, .inr rfl⟩⟩
  | refl => exact .inl rfl
  | symm _ _ _ ih => exact ih.imp Eq.symm And.symm
  | trans _ _ _ _ _ ih₁ ih₂ =>
    rcases ih₁ with rfl | ⟨h₁, h₁'⟩ <;> rcases ih₂ with rfl | ⟨h₂, h₃⟩
    · exact .inl rfl
    · exact .inr ⟨h₂, h₃⟩
    · exact .inr ⟨h₁, h₁'⟩
    · exact .inr ⟨h₁, h₃⟩

end joined

/-! ## `union` over a list of edges -/

/-- The sets of `u` are the classes of `Joined F`. -/
def Represents (u : UnionFind n) (F : List (EdgeRef n E)) : Prop :=
  ∀ a b, u.rep a = u.rep b ↔ Joined F a b

/-- `union` on the endpoints of each edge of `L`, in order. -/
def unionAll (u : UnionFind n) (L : List (EdgeRef n E)) : UnionFind n :=
  L.foldl (fun u e => (u.union e.source e.target).2) u

/-- The edges of `L` whose `union`, made in order, merges two sets: the edges Kruskal's loop
keeps. -/
def kruskalSelect : UnionFind n → List (EdgeRef n E) → List (EdgeRef n E)
  | _, [] => []
  | u, e :: L =>
    if (u.union e.source e.target).1 then e :: kruskalSelect (u.union e.source e.target).2 L
    else kruskalSelect (u.union e.source e.target).2 L

section represents

variable {u : UnionFind n} {B F L : List (EdgeRef n E)} {e : EdgeRef n E}

theorem represents_new : Represents (UnionFind.new : UnionFind n) ([] : List (EdgeRef n E)) :=
  fun a b => ⟨fun (h : a = b) => h ▸ .refl _ _, fun h => by
    rcases h.eq_or_endpoint with h | ⟨⟨e, he, -⟩, -⟩
    · exact h
    · exact absurd he (List.not_mem_nil e)⟩

theorem Represents.joined_rep (h : Represents u F) (x : Fin n) : Joined F x (u.rep x) :=
  (h x (u.rep x)).1 (u.rep_rep x).symm

theorem Represents.union (h : Represents u F) (e : EdgeRef n E) :
    Represents (u.union e.source e.target).2 (F ++ [e]) := by
  intro x y
  constructor
  · intro hxy
    have h' : ∀ a b, u.rep a = u.rep b ↔ Joined F a b := h
    rw [UnionFind.rep_union_eq_iff] at hxy
    simp only [h'] at hxy
    have hF : ∀ {a b}, Joined F a b → Joined (F ++ [e]) a b :=
      Joined.mono fun f hf => List.mem_append_left _ hf
    have he : Joined (F ++ [e]) e.source e.target := joined_of_mem (by simp)
    rcases hxy with hxy | ⟨hxa, hyb⟩ | ⟨hxb, hya⟩
    · exact hF hxy
    · exact ((hF hxa).trans he).trans (hF hyb).symm
    · exact ((hF hxb).trans he.symm).trans (hF hya).symm
  · intro hxy
    induction hxy with
    | rel a b hab =>
      obtain ⟨f, hf, rfl, rfl⟩ := hab
      rw [UnionFind.rep_union_eq_iff]
      rcases List.mem_append.1 hf with hf | hf
      · exact .inl ((h _ _).2 (joined_of_mem hf))
      · rw [List.mem_singleton.1 hf]; exact .inr (.inl ⟨rfl, rfl⟩)
    | refl => rfl
    | symm _ _ _ ih => exact ih.symm
    | trans _ _ _ _ _ ih₁ ih₂ => exact ih₁.trans ih₂

theorem union_eq_of_not_fst (h : ¬ (u.union e.source e.target).1 = true) :
    (u.union e.source e.target).2 = u := by
  rw [UnionFind.union_fst, not_not] at h
  rw [UnionFind.union_of_eq h]

/-- After the edges `L`, the sets are the classes of everything seen. -/
theorem represents_unionAll (h : Represents u B) : Represents (unionAll u L) (B ++ L) := by
  induction L generalizing u B with
  | nil => simpa [unionAll] using h
  | cons e L ih => simpa [unionAll] using ih (h.union e)

/-- After the edges `L`, the sets are also the classes of the edges kept. -/
theorem represents_kruskalSelect (h : Represents u B) :
    Represents (unionAll u L) (B ++ kruskalSelect u L) := by
  induction L generalizing u B with
  | nil => simpa [unionAll, kruskalSelect] using h
  | cons e L ih =>
    by_cases hm : (u.union e.source e.target).1 = true
    · simpa [unionAll, kruskalSelect, hm] using ih (h.union e)
    · have := ih (u := (u.union e.source e.target).2) (B := B) (by rwa [union_eq_of_not_fst hm])
      simpa [unionAll, kruskalSelect, hm] using this

theorem represents_unionAll_new (F : List (EdgeRef n E)) :
    Represents (unionAll UnionFind.new F) F := by
  simpa using represents_unionAll (L := F) represents_new

/-- Connectivity is decided by a `UnionFind`. -/
instance (F : List (EdgeRef n E)) : DecidableRel (Joined F) :=
  fun a b => decidable_of_iff _ (represents_unionAll_new F a b)

/-- Each edge kept removes one set. -/
theorem classes_unionAll : (unionAll u L).classes + (kruskalSelect u L).length = u.classes := by
  induction L generalizing u with
  | nil => rfl
  | cons e L ih =>
    by_cases hm : (u.union e.source e.target).1 = true
    · have := UnionFind.classes_union (UnionFind.union_fst.1 hm)
      simp only [unionAll, List.foldl_cons, kruskalSelect, hm, if_true, List.length_cons] at ih ⊢
      have := @ih (u.union e.source e.target).2
      simp only [unionAll] at this
      omega
    · have := @ih (u.union e.source e.target).2
      simp only [unionAll, List.foldl_cons, kruskalSelect, hm, if_false] at this ⊢
      rwa [union_eq_of_not_fst hm] at this ⊢

theorem classes_unionAll_new (L : List (EdgeRef n E)) :
    (unionAll UnionFind.new L).classes + (kruskalSelect UnionFind.new L).length = n := by
  simpa using classes_unionAll (u := (UnionFind.new : UnionFind n)) (L := L)

theorem represents_kruskalSelect_new (L : List (EdgeRef n E)) :
    Represents (unionAll UnionFind.new L) (kruskalSelect UnionFind.new L) := by
  simpa using represents_kruskalSelect (L := L) represents_new

theorem kruskalSelect_sublist : ∀ (u : UnionFind n) (L : List (EdgeRef n E)),
    (kruskalSelect u L).Sublist L
  | _, [] => .slnil
  | u, e :: L => by
    unfold kruskalSelect
    split
    · exact (kruskalSelect_sublist _ L).cons₂ e
    · exact (kruskalSelect_sublist _ L).cons e

/-- When no edge of `L` is joined by what comes before it, every edge is kept. -/
theorem kruskalSelect_eq_self (h : Represents u B)
    (hL : ∀ L₁ e L₂, L = L₁ ++ e :: L₂ → ¬ Joined (B ++ L₁) e.source e.target) :
    kruskalSelect u L = L := by
  induction L generalizing u B with
  | nil => rfl
  | cons e L ih =>
    have hm : (u.union e.source e.target).1 = true :=
      UnionFind.union_fst.2 fun he => hL [] e L rfl (by simpa using (h _ _).1 he)
    simp only [kruskalSelect, hm, if_true, List.cons.injEq, true_and]
    exact ih (h.union e) fun L₁ f L₂ hL' => by
      simpa using hL (e :: L₁) f L₂ (by rw [hL', List.cons_append])

/-- The `i`-th edge kept sits in `L` after a prefix from which exactly the first `i` edges
kept come. -/
theorem kruskalSelect_split : ∀ (u : UnionFind n) (L : List (EdgeRef n E)) (i : ℕ)
    (hi : i < (kruskalSelect u L).length), ∃ L₁ L₂,
      L = L₁ ++ (kruskalSelect u L)[i] :: L₂ ∧ kruskalSelect u L₁ = (kruskalSelect u L).take i
  | _, [], _, hi => absurd hi (by simp [kruskalSelect])
  | u, e :: L, i, hi => by
    by_cases hm : (u.union e.source e.target).1 = true
    · have hK : kruskalSelect u (e :: L) = e :: kruskalSelect (u.union e.source e.target).2 L := by
        simp [kruskalSelect, hm]
      cases i with
      | zero => exact ⟨[], L, by simp [hK], by simp [kruskalSelect]⟩
      | succ i =>
        have hi' : i < (kruskalSelect (u.union e.source e.target).2 L).length := by
          simpa [hK] using hi
        obtain ⟨L₁, L₂, hL, hsel⟩ := kruskalSelect_split _ L i hi'
        refine ⟨e :: L₁, L₂, ?_, ?_⟩
        · simp only [hK, List.getElem_cons_succ, List.cons_append]; rw [← hL]
        · simp [kruskalSelect, hm, hsel, hK]
    · have hK : kruskalSelect u (e :: L) = kruskalSelect (u.union e.source e.target).2 L := by
        simp [kruskalSelect, hm]
      obtain ⟨L₁, L₂, hL, hsel⟩ := kruskalSelect_split _ L i (by rwa [← hK])
      refine ⟨e :: L₁, L₂, ?_, ?_⟩
      · simp only [hK, List.cons_append]; rw [← hL]
      · simp [kruskalSelect, hm, hsel, hK]

end represents

/-- A coarser connectivity leaves no more sets. -/
theorem Represents.classes_le {u v : UnionFind n} {A B : List (EdgeRef n E)}
    (hu : Represents u A) (hv : Represents v B) (h : ∀ a b, Joined A a b → Joined B a b) :
    v.classes ≤ u.classes := by
  unfold UnionFind.classes
  have himage : Finset.univ.image v.rep = (Finset.univ.image u.rep).image v.rep := by
    rw [Finset.image_image]
    congr 1
    funext x
    exact (hv _ _).2 (h _ _ (hu.joined_rep x))
  rw [himage]
  exact Finset.card_image_le

/-! ## Forests -/

section forests

variable [DecidableEq E] {F F' : List (EdgeRef n E)}

/-- `F` holds no cycle: the other edges of `F` never join the endpoints of one of them. -/
def Acyclic (F : List (EdgeRef n E)) : Prop :=
  ∀ e ∈ F, ¬ Joined (F.erase e) e.source e.target

theorem mem_erase_of_mem_left {L₁ L₂ : List (EdgeRef n E)} {x e : EdgeRef n E} (hx : x ∈ L₁) :
    x ∈ (L₁ ++ e :: L₂).erase e := by
  by_cases he : e ∈ L₁
  · rw [List.erase_append_left _ he]
    by_cases hxe : x = e
    · exact List.mem_append_right _ (hxe ▸ List.mem_cons_self _ _)
    · exact List.mem_append_left _ ((List.mem_erase_of_ne hxe).2 hx)
  · rw [List.erase_append_right _ he, List.erase_cons_head]
    exact List.mem_append_left _ hx

theorem Acyclic.subperm (h : Acyclic F) (hs : F'.Subperm F) : Acyclic F' := fun e he hj =>
  h e (hs.subset he) (hj.mono fun _ hx => (hs.erase e).subset hx)

/-- Without a cycle, every edge merges two sets. -/
theorem Acyclic.kruskalSelect_eq (h : Acyclic F) : kruskalSelect UnionFind.new F = F :=
  kruskalSelect_eq_self represents_new fun L₁ e L₂ hF hj => by
    subst hF
    exact h e (by simp) ((by simpa using hj : Joined L₁ _ _).mono
      fun _ hx => mem_erase_of_mem_left hx)

/-- A list without cycle leaves as many sets as nodes, less its length. -/
theorem Acyclic.classes (h : Acyclic F) : (unionAll UnionFind.new F).classes + F.length = n := by
  simpa only [h.kruskalSelect_eq] using classes_unionAll_new F

/-- What Kruskal's loop keeps holds no cycle: an edge joined by the others would have left
one set more. -/
theorem acyclic_kruskalSelect (L : List (EdgeRef n E)) :
    Acyclic (kruskalSelect UnionFind.new L) := by
  intro e he hj
  have hc := classes_unionAll_new L
  set K := kruskalSelect UnionFind.new L
  have hc' := classes_unionAll_new (K.erase e)
  have hlen := (kruskalSelect_sublist UnionFind.new (K.erase e)).length_le
  have hlen' := List.length_erase_add_one he
  have hge := Represents.classes_le (represents_kruskalSelect_new L)
    (represents_unionAll_new (K.erase e)) fun a b h => h.of_forall fun f hf => by
    by_cases hfe : f = e
    · exact hfe ▸ hj
    · exact joined_of_mem ((List.mem_erase_of_ne hfe).2 hf)
  omega

end forests

/-! ## Gale's comparison -/

section gale

variable {W : Type}

/-- Gale's comparison: the `i`-th edge Kruskal keeps from `O`, sorted by weight, weighs no more
than the `i`-th edge of a list without cycle, sorted by weight, whose edges all are in `O`. -/
theorem kruskalSelect_getElem_le [LinearOrder W] {O F : List (EdgeRef n W)}
    (hO : O.Pairwise fun e f => e.weight ≤ f.weight) (hF : Acyclic F) (hFO : ∀ f ∈ F, f ∈ O)
    (hFs : F.Pairwise fun e f => e.weight ≤ f.weight) (i : ℕ)
    (hi : i < (kruskalSelect UnionFind.new O).length) (hi' : i < F.length) :
    (kruskalSelect UnionFind.new O)[i].weight ≤ F[i].weight := by
  by_contra hlt
  rw [not_le] at hlt
  obtain ⟨O₁, O₂, hO', hsel⟩ := kruskalSelect_split UnionFind.new O i hi
  -- the first `i + 1` edges of `F` leave one set fewer than the `i` edges kept from `O₁`
  have hA := (hF.subperm (List.take_sublist (i + 1) F).subperm).classes
  rw [List.length_take, min_eq_left (by omega)] at hA
  have hO₁ := represents_unionAll_new O₁
  have hB : (unionAll UnionFind.new O₁).classes + i = n := by
    have := classes_unionAll_new O₁
    rwa [hsel, List.length_take, min_eq_left hi.le] at this
  -- so `O₁` does not join the endpoints of one of them
  obtain ⟨f, hfA, hf⟩ : ∃ f ∈ F.take (i + 1), ¬ Joined O₁ f.source f.target := by
    by_contra h
    push_neg at h
    have := Represents.classes_le (represents_unionAll_new (F.take (i + 1))) hO₁
      fun a b hab => hab.of_forall h
    omega
  -- it weighs no more than the `i`-th edge of `F`
  have hfw : f.weight ≤ F[i].weight := by
    obtain ⟨j, hj, rfl⟩ := List.getElem_of_mem hfA
    rw [List.getElem_take]
    rw [List.length_take] at hj
    rcases Nat.lt_or_ge j i with hji | hji
    · exact List.pairwise_iff_getElem.1 hFs j i _ hi' hji
    · obtain rfl : j = i := le_antisymm (Nat.lt_succ_iff.1 (lt_min_iff.1 hj).1) hji
      exact le_rfl
  -- so it was popped before the `i`-th edge kept, from `O₁`
  have hs := hO
  rw [hO'] at hs
  have hfO : f ∈ O₁ := by
    have hf' := hFO f (List.mem_of_mem_take hfA)
    rw [hO', List.mem_append, List.mem_cons] at hf'
    rcases hf' with h | rfl | h
    · exact h
    · exact absurd hlt (not_lt.2 hfw)
    · exact absurd (hlt.trans_le ((List.pairwise_cons.1 (List.pairwise_append.1 hs).2.1).1 f h))
        (not_lt.2 hfw)
  exact hf (joined_of_mem hfO)

/-- What Kruskal keeps from `O`, sorted by weight, weighs in all no more than any list without
cycle, as long, whose edges all are in `O`. -/
theorem kruskalSelect_sum_le [LinearOrderedAddCommMonoid W] {O F : List (EdgeRef n W)}
    (hO : O.Pairwise fun e f => e.weight ≤ f.weight) (hF : Acyclic F) (hFO : ∀ f ∈ F, f ∈ O)
    (hlen : F.length = (kruskalSelect UnionFind.new O).length) :
    ((kruskalSelect UnionFind.new O).map EdgeRef.weight).sum ≤ (F.map EdgeRef.weight).sum := by
  let Fs := F.mergeSort fun e f => decide (e.weight ≤ f.weight)
  have hperm : Fs.Perm F := List.mergeSort_perm F _
  have hsorted : Fs.Pairwise fun e f => e.weight ≤ f.weight := by
    refine (List.sorted_mergeSort (fun a b c hab hbc => ?_) (fun a b => ?_) F).imp (by simp)
    · simp only [decide_eq_true_eq] at hab hbc ⊢; exact hab.trans hbc
    · simpa using le_total a.weight b.weight
  rw [← (hperm.map EdgeRef.weight).sum_eq]
  refine List.Forall₂.sum_le_sum (List.forall₂_iff_get.2 ⟨by simp [Fs, hlen], fun i h₁ h₂ => ?_⟩)
  simp only [List.get_eq_getElem, List.getElem_map]
  exact kruskalSelect_getElem_le hO (hF.subperm hperm.subperm) (fun f hf => hFO f (hperm.subset hf))
    hsorted i (by simpa using h₁) (by simpa using h₂)

end gale

/-! ## The graph: nodes, components, spanning forests -/

namespace RefGraph

variable {N : Type} (g : RefGraph n N E)

/-- The node indices of `node_references()`, in order. -/
def nodeIds : List (Fin n) := g.nodeRefs.map Prod.fst

/-- The position at which `node_references()` yields `v`. -/
def position (v : Fin n) : ℕ := g.nodeIds.indexOf v

/-- The number of connected components of `g`, its edges read in both directions: the number
of different node sets `{u | Joined v u}` over the nodes `v` of `g`. -/
def componentCount : ℕ :=
  (g.nodeIds.toFinset.image fun v => g.nodeIds.toFinset.filter (Joined g.edgeRefs v)).card

/-- `F` is a spanning forest of `g`: edges of `g`, each occurrence at most once, holding no
cycle, and joining every two nodes that `g` joins. -/
structure IsSpanningForest [DecidableEq E] (F : List (EdgeRef n E)) : Prop where
  subperm : F.Subperm g.edgeRefs
  acyclic : Acyclic F
  spans : ∀ a b, Joined g.edgeRefs a b → Joined F a b

variable {g}

theorem endpoint_mem {v : Fin n} (h : ∃ e ∈ g.edgeRefs, e.source = v ∨ e.target = v) :
    v ∈ g.nodeIds.toFinset := by
  obtain ⟨e, he, rfl | rfl⟩ := h
  · exact List.mem_toFinset.2 (g.source_mem e he)
  · exact List.mem_toFinset.2 (g.target_mem e he)

/-- The sets of a `UnionFind` holding the classes of `g` are its components, and one set per
node index that is a hole. -/
theorem classes_eq {u : UnionFind n} (hu : Represents u g.edgeRefs) :
    u.classes = g.componentCount + (n - g.nodeIds.toFinset.card) := by
  set V := g.nodeIds.toFinset
  -- a representative of a node is a node, and a hole is its own representative
  have hnode : ∀ v ∈ V, u.rep v ∈ V := fun v hv => by
    rcases (hu.joined_rep v).eq_or_endpoint with h | ⟨-, h⟩
    · exact h ▸ hv
    · exact endpoint_mem h
  have hhole : ∀ x ∉ V, u.rep x = x := fun x hx => by
    rcases (hu.joined_rep x).eq_or_endpoint with h | ⟨h, -⟩
    · exact h.symm
    · exact absurd (endpoint_mem h) hx
  have himage : Finset.univ.image u.rep = V.image u.rep ∪ Vᶜ := by
    ext x
    simp only [Finset.mem_image, Finset.mem_univ, true_and, Finset.mem_union, Finset.mem_compl]
    constructor
    · rintro ⟨y, rfl⟩
      by_cases hy : y ∈ V
      · exact .inl ⟨y, hy, rfl⟩
      · exact .inr (by rwa [hhole y hy])
    · rintro (⟨y, -, rfl⟩ | hx)
      · exact ⟨y, rfl⟩
      · exact ⟨x, hhole x hx⟩
  have hdisj : Disjoint (V.image u.rep) Vᶜ := Finset.disjoint_left.2 fun x hx hxc => by
    obtain ⟨v, hv, rfl⟩ := Finset.mem_image.1 hx
    exact Finset.mem_compl.1 hxc (hnode v hv)
  -- the components are in one-to-one correspondence with the representatives of nodes
  have hcomp : g.componentCount = (V.image u.rep).card := by
    have hφ : (V.image u.rep).image (fun r => V.filter (Joined g.edgeRefs r)) =
        V.image fun v => V.filter (Joined g.edgeRefs v) := by
      rw [Finset.image_image]
      refine Finset.image_congr fun v _ => Finset.filter_congr fun w _ => ?_
      exact ⟨fun h => (hu.joined_rep v).trans h, fun h => (hu.joined_rep v).symm.trans h⟩
    unfold componentCount
    rw [← hφ, Finset.card_image_of_injOn]
    intro r hr r' hr' h
    obtain ⟨v, hv, rfl⟩ := Finset.mem_image.1 hr
    obtain ⟨v', hv', rfl⟩ := Finset.mem_image.1 hr'
    have hmem : u.rep v' ∈ V.filter (Joined g.edgeRefs (u.rep v)) := by
      simp only at h; rw [h]; exact Finset.mem_filter.2 ⟨hnode v' hv', .refl _ _⟩
    have := (Finset.mem_filter.1 hmem).2
    rw [← u.rep_rep v, ← u.rep_rep v']
    exact (hu _ _).2 this
  unfold UnionFind.classes
  rw [himage, Finset.card_union_of_disjoint hdisj, Finset.card_compl, Fintype.card_fin, hcomp]

/-- Every spanning forest of `g` has as many edges as `g` has nodes, less its components. -/
theorem IsSpanningForest.length_eq [DecidableEq E] {F : List (EdgeRef n E)}
    (hF : g.IsSpanningForest F) : F.length = g.nodeRefs.length - g.componentCount := by
  have hc := classes_eq fun a b => (represents_unionAll_new F a b).trans
    ⟨Joined.mono fun _ he => hF.subperm.subset he, hF.spans a b⟩
  have hcF := hF.acyclic.classes
  have hV : g.nodeIds.toFinset.card ≤ n := by simpa using Finset.card_le_univ g.nodeIds.toFinset
  have hnodes : g.nodeIds.toFinset.card = g.nodeRefs.length := by
    rw [nodeIds, List.toFinset_card_of_nodup g.nodup_ids, List.length_map]
  omega

/-- What Kruskal's loop keeps from a pop order of the edges of `g` is a spanning forest. -/
theorem isSpanningForest_kruskalSelect [LE E] [DecidableEq E] (order : PopOrder g.edgeRefs) :
    g.IsSpanningForest (kruskalSelect UnionFind.new order.order) where
  subperm := (kruskalSelect_sublist _ _).subperm.trans order.perm.subperm
  acyclic := acyclic_kruskalSelect _
  spans a b h := (represents_kruskalSelect_new _ a b).1 <|
    (represents_unionAll_new _ a b).2 (h.mono fun _ he => order.perm.mem_iff.2 he)

end RefGraph

/-! ## The iterator -/

namespace MinSpanningTree

variable {N : Type}

theorem except_map_map {α β γ : Type} (f : β → γ) (f' : α → β) (x : Except String α) :
    (x.map f').map f = x.map (f ∘ f') := by
  cases x <;> rfl

/-- The node phase: the remaining node references are yielded, and `node_map` ends up sending
each node to its position. -/
theorem collect_nodes (g : RefGraph n N E) : ∀ (refs pre : List (Fin n × N))
    (it : MinSpanningTree n N E) (fuel : ℕ), pre ++ refs = g.nodeRefs → it.nodeIds = some refs →
    it.nodeCount = pre.length →
    (∀ v, it.nodeMap v = if v ∈ pre.map Prod.fst then some (g.position v) else none) →
    it.collect (refs.length + fuel) =
      (({ it with
          nodeIds := some []
          nodeMap := fun v => if v ∈ g.nodeIds then some (g.position v) else none
          nodeCount := g.nodeRefs.length } : MinSpanningTree n N E).collect fuel).map
        (refs.map (fun r => Element.node r.2) ++ ·)
  | [], pre, it, fuel, hpre, hids, hcount, hmap => by
    rw [List.append_nil] at hpre
    subst hpre
    have hit : ({ it with
        nodeIds := some []
        nodeMap := fun v => if v ∈ g.nodeIds then some (g.position v) else none
        nodeCount := g.nodeRefs.length } : MinSpanningTree n N E) = it := by
      cases it
      simp only at hids hcount hmap
      simp only [hids, hcount, MinSpanningTree.mk.injEq, true_and, and_true]
      funext v
      rw [hmap v]
      rfl
    rw [hit, List.length_nil, Nat.zero_add]
    cases it.collect fuel <;> rfl
  | r :: refs, pre, it, fuel, hpre, hids, hcount, hmap => by
    have hnd := g.nodup_ids
    rw [← hpre, List.map_append, List.map_cons] at hnd
    have hr : r.1 ∉ pre.map Prod.fst := fun h => (List.nodup_append.1 hnd).2.2 h (List.mem_cons_self _ _)
    have hpos : g.position r.1 = pre.length := by
      rw [RefGraph.position, RefGraph.nodeIds, ← hpre, List.map_append, List.map_cons,
        List.indexOf_append_of_not_mem hr, List.indexOf_cons_self, List.length_map, add_zero]
    rw [List.length_cons, Nat.add_right_comm, collect, next_of_nodeIds_cons hids]
    simp only
    rw [collect_nodes g refs (pre ++ [r]) _ fuel (by simp [← hpre]) rfl (by simp [hcount]) ?_,
      except_map_map]
    · rfl
    · intro v
      by_cases hv : v = r.1
      · subst hv
        simp only [hcount, hpos, Function.update_same, List.map_append, List.map_cons, List.map_nil,
          List.mem_append, List.mem_singleton, or_true, if_true]
      · dsimp only
        rw [Function.update_noteq hv, hmap v]
        simp only [List.map_append, List.map_cons, List.map_nil, List.mem_append,
          List.mem_singleton, hv, or_false]

/-- The edge phase: the edges of the heap that `union` merges are yielded, between the
positions of their endpoints. -/
theorem collect_edges {pos : Fin n → ℕ} : ∀ (L : List (EdgeRef n E)) (it : MinSpanningTree n N E)
    (fuel : ℕ), it.nodeIds.getD [] = [] → it.sortEdges = L →
    (∀ e ∈ L, it.nodeMap e.source = some (pos e.source) ∧ it.nodeMap e.target = some (pos e.target)) →
    L.length < fuel →
    it.collect fuel = .ok ((kruskalSelect it.subgraphs L).map fun e =>
      Element.edge (pos e.source) (pos e.target) e.weight)
  | _, _, 0, _, _, _, hfuel => absurd hfuel (Nat.not_lt_zero _)
  | [], it, fuel + 1, hd, hL, _, _ => by
    simp [collect, next_of_nodeIds_done hd, hL, popEdge_nil, kruskalSelect, Except.map]
  | e :: L, it, fuel + 1, hd, hL, hm, hfuel => by
    obtain ⟨hs, ht⟩ := hm e (List.mem_cons_self _ _)
    have hm' : ∀ f ∈ L, it.nodeMap f.source = some (pos f.source) ∧
        it.nodeMap f.target = some (pos f.target) := fun f hf => hm f (List.mem_cons_of_mem _ hf)
    rw [List.length_cons] at hfuel
    by_cases hmerge : (it.subgraphs.union e.source e.target).1 = true
    · rw [collect, next_of_nodeIds_done hd, hL, popEdge_cons_of_merge hmerge hs ht]
      simp only [Except.map]
      rw [collect_edges L { it with
        nodeIds := none, subgraphs := (it.subgraphs.union e.source e.target).2, sortEdges := L }
        fuel rfl rfl hm' (by omega)]
      simp [kruskalSelect, hmerge, Except.map]
    · have heq : it.subgraphs.rep e.source = it.subgraphs.rep e.target := by
        simpa [UnionFind.union_fst] using hmerge
      -- the dropped edge is popped as if the heap had started after it
      have hnext : it.next = ({ it with sortEdges := L } : MinSpanningTree n N E).next := by
        rw [next_of_nodeIds_done hd, next_of_nodeIds_done
          (show ({ it with sortEdges := L } : MinSpanningTree n N E).nodeIds.getD [] = [] from hd),
          hL, popEdge_cons_of_eq heq]
      rw [collect_succ_congr hnext,
        collect_edges L { it with sortEdges := L } (fuel + 1) hd rfl hm' (by omega)]
      simp [kruskalSelect, hmerge, union_eq_of_not_fst hmerge]

end MinSpanningTree

/-! ## `min_spanning_tree` -/

theorem RefGraph.getElem_position {N : Type} (g : RefGraph n N E) {v : Fin n}
    (h : v ∈ g.nodeIds) : g.nodeIds[g.position v]? = some v := by
  simpa [RefGraph.position] using List.indexOf_get? h

/-- Iterating `min_spanning_tree(g)` never panics: it yields the nodes of `node_references()`,
then the edges Kruskal's loop keeps from the heap's pop order, between the positions of their
endpoints. -/
theorem minSpanningTreeElements_eq {N : Type} [LE E] (g : RefGraph n N E)
    (order : PopOrder g.edgeRefs) :
    minSpanningTreeElements g order = .ok (g.nodeRefs.map (fun r => Element.node r.2) ++
      (kruskalSelect UnionFind.new order.order).map fun e =>
        Element.edge (g.position e.source) (g.position e.target) e.weight) := by
  unfold minSpanningTreeElements
  rw [Nat.add_assoc, MinSpanningTree.collect_nodes g g.nodeRefs [] _ _ (List.nil_append _) rfl rfl
    (fun v => by simp [minSpanningTree]), MinSpanningTree.collect_edges order.order
      { minSpanningTree g order with
        nodeIds := some []
        nodeMap := fun v => if v ∈ g.nodeIds then some (g.position v) else none
        nodeCount := g.nodeRefs.length } _ rfl rfl (fun e he => ?_)
      (by rw [order.perm.length_eq]; omega)]
  · rfl
  · have he' := order.perm.subset he
    exact ⟨if_pos (g.source_mem e he'), if_pos (g.target_mem e he')⟩

/-- **`min_spanning_tree` is correct.**  For every order in which the heap may pop edges of
equal weight, iterating `min_spanning_tree(g)` never panics and yields the nodes of
`node_references()`, in order, followed by `node_count - c` edges, `c` the number of components,
each between the positions of its endpoints.  These edges form a spanning forest of `g` that
weighs no more than any spanning forest of `g`. -/
theorem minSpanningTree_spec {N W : Type} [LinearOrderedAddCommMonoid W] (g : RefGraph n N W)
    (order : PopOrder g.edgeRefs) :
    ∃ forest : List (EdgeRef n W),
      minSpanningTreeElements g order = .ok (g.nodeRefs.map (fun r => Element.node r.2) ++
        forest.map fun e => Element.edge (g.position e.source) (g.position e.target) e.weight) ∧
      forest.length = g.nodeRefs.length - g.componentCount ∧
      (∀ e ∈ forest, g.nodeIds[g.position e.source]? = some e.source ∧
        g.nodeIds[g.position e.target]? = some e.target) ∧
      g.IsSpanningForest forest ∧
      ∀ F, g.IsSpanningForest F → (forest.map EdgeRef.weight).sum ≤ (F.map EdgeRef.weight).sum := by
  have hK := RefGraph.isSpanningForest_kruskalSelect order
  refine ⟨_, minSpanningTreeElements_eq g order, hK.length_eq, fun e he => ?_, hK, fun F hF => ?_⟩
  · have he' := hK.subperm.subset he
    exact ⟨g.getElem_position (g.source_mem e he'), g.getElem_position (g.target_mem e he')⟩
  · exact kruskalSelect_sum_le order.sorted hF.acyclic
      (fun f hf => order.perm.mem_iff.2 (hF.subperm.subset hf)) (hF.length_eq.trans hK.length_eq.symm)

/-- A triangle whose heaviest edge closes the cycle. -/
def triangleGraph : RefGraph 3 Unit ℕ where
  nodeRefs := [(0, ()), (1, ()), (2, ())]
  edgeRefs := [⟨0, 0, 1, 1⟩, ⟨1, 1, 2, 2⟩, ⟨2, 0, 2, 3⟩]
  nodup_ids := by decide
  source_mem := by decide
  target_mem := by decide

/-- The edges of the triangle, lightest first. -/
def triangleOrder : PopOrder triangleGraph.edgeRefs :=
  ⟨triangleGraph.edgeRefs, List.Perm.refl _, by decide⟩

/-- The two light edges are kept, the heavy one is dropped. -/
example : minSpanningTreeElements triangleGraph triangleOrder =
    .ok [.node (), .node (), .node (), .edge 0 1 1, .edge 1 2 2] := rfl

end Petgraph
