import PetgraphAlgo.PostOrder
import PetgraphAlgo.Reach
import Mathlib.Data.Finset.Max

/-!
# `kosaraju_scc`

`kosaraju_scc(g)` of `src/algo/mod.rs`.  The first pass runs a `DfsPostOrder` over
`Reversed(g)` from every undiscovered node and records the finish order.  The second
pass reuses the visit map (reset), takes the nodes in decreasing finishing time, and
runs a `Dfs` over `g` from each undiscovered one: what it discovers is one component.

The main result is `kosarajuScc_spec`: every node is in exactly one of the returned
lists, two nodes share a list iff they are mutually reachable, and an edge between two
lists always goes from a later list to an earlier one.  The first pass is a complete
post-order traversal of the reversed graph (`kosarajuFinishOrder_complete`, from
`PostInv`); the second pass keeps `SccInv`, whose step rests on `reachAvoid_iff_sameScc`:
from the latest-finishing undiscovered node, the nodes reachable through undiscovered
nodes are exactly its component.
-/

namespace Petgraph

variable {n : ℕ}

/-! ## The model -/

/-- First pass: `for i in g.node_identifiers() { if dfs.discovered.is_visited(&i) { continue; }
dfs.move_to(i); while let Some(nx) = dfs.next(Reversed(g)) { finish_order.push(nx); } }`. -/
def kosarajuFinishOrder (g : Graph n) : List (Fin n) → DfsPostOrder n → List (Fin n) →
    List (Fin n) × DfsPostOrder n
  | [], dfs, finishOrder => (finishOrder, dfs)
  | i :: is, dfs, finishOrder =>
    if i ∈ dfs.discovered then kosarajuFinishOrder g is dfs finishOrder
    else
      let res := DfsPostOrder.drain g.reversed (dfs.moveTo i) finishOrder
      kosarajuFinishOrder g is res.2 res.1

/-- Second pass: `for i in finish_order.into_iter().rev() { if dfs.discovered.is_visited(&i)
{ continue; } dfs.move_to(i); let mut scc = Vec::new(); while let Some(nx) = dfs.next(g)
{ scc.push(nx); } sccs.push(scc); }`. -/
def kosarajuSccs (g : Graph n) : List (Fin n) → Dfs n → List (List (Fin n)) → List (List (Fin n))
  | [], _, sccs => sccs
  | i :: is, dfs, sccs =>
    if i ∈ dfs.discovered then kosarajuSccs g is dfs sccs
    else
      let res := Dfs.drain g (dfs.moveTo i) []
      kosarajuSccs g is res.2 (sccs ++ [res.1])

/-- `kosaraju_scc(g)`; `Dfs::from_parts(dfs.stack, dfs.discovered)` then `reset`. -/
def kosarajuScc (g : Graph n) : List (List (Fin n)) :=
  let res := kosarajuFinishOrder g g.nodeIdentifiers DfsPostOrder.empty []
  kosarajuSccs g res.1.reverse (Dfs.reset ⟨res.2.stack, res.2.discovered⟩) []

/-! ## The first pass -/

theorem kosarajuFinishOrder_inv {g : Graph n} {is : List (Fin n)} {dfs : DfsPostOrder n}
    {fo : List (Fin n)} (I : PostInv g.reversed dfs fo) (hs : dfs.stack = []) :
    let res := kosarajuFinishOrder g is dfs fo
    PostInv g.reversed res.2 res.1 ∧ res.2.stack = [] ∧ dfs.discovered ⊆ res.2.discovered ∧
      ∀ i ∈ is, i ∈ res.2.discovered := by
  induction is generalizing dfs fo with
  | nil => exact ⟨I, hs, subset_rfl, by simp⟩
  | cons i is ih =>
    obtain ⟨s, d, f⟩ := dfs
    simp only at hs
    subst hs
    rw [kosarajuFinishOrder]
    split_ifs with hi
    · obtain ⟨I', hs', hd, hr⟩ := ih I rfl
      refine ⟨I', hs', hd, fun j hj => ?_⟩
      rcases List.mem_cons.1 hj with rfl | hj
      · exact hd hi
      · exact hr j hj
    · obtain ⟨I₁, hs₁, hd₁⟩ := (I.root (i := i)).drain
      obtain ⟨I', hs', hd, hr⟩ := ih I₁ hs₁
      refine ⟨I', hs', hd₁.trans hd, fun j hj => ?_⟩
      rcases List.mem_cons.1 hj with rfl | hj
      · exact hd (DfsPostOrder.mem_discovered_drain g.reversed ⟨[], d, f⟩ j fo)
      · exact hr j hj

/-- What the second pass needs of the first pass's finish order `fo`: it lists every node
once, and whatever reaches a node `u` finished before `u` or reaches a node of `u`'s
component that finished after `u`. -/
structure FinishOrder (g : Graph n) (fo : List (Fin n)) : Prop where
  nodup : fo.Nodup
  mem : ∀ v, v ∈ fo
  reach : ∀ u v, g.Reach v u →
    v = u ∨ Before fo v u ∨ ∃ w, g.SameScc u w ∧ g.Reach v w ∧ Before fo u w

/-- A post-order traversal of `Reversed(g)` that has emptied its stack and discovered every
node finishes in an order fit for the second pass over `g`. -/
theorem PostInv.finishOrder {g : Graph n} {d f : Finset (Fin n)} {fo : List (Fin n)}
    (I : PostInv g.reversed ⟨[], d, f⟩ fo) (hd : ∀ v, v ∈ d) : FinishOrder g fo := by
  have hdf := I.discovered_eq
  subst hdf
  obtain ⟨hnd, hall⟩ := I.complete hd
  refine ⟨hnd, hall, fun u v h => ?_⟩
  rcases I.finished_reach u (hd u) v (Graph.reach_reversed.2 h) with h' | h' | ⟨w, hw, hwv, h'⟩
  · exact .inl h'
  · exact .inr (.inl h')
  · exact .inr (.inr ⟨w, Graph.sameScc_reversed.1 hw, Graph.reach_reversed.1 hwv,
      h'.resolve_left (not_not.2 (hd w))⟩)

/-- **The first pass** is a complete post-order traversal of `Reversed(g)`. -/
theorem kosarajuFinishOrder_complete (g : Graph n) :
    FinishOrder g (kosarajuFinishOrder g g.nodeIdentifiers DfsPostOrder.empty []).1 := by
  obtain ⟨I, hs, -, hr⟩ := kosarajuFinishOrder_inv (g := g) (PostInv.init (g := g.reversed))
    (show (DfsPostOrder.empty : DfsPostOrder n).stack = [] from rfl)
  generalize kosarajuFinishOrder g g.nodeIdentifiers DfsPostOrder.empty [] = res at I hs hr ⊢
  obtain ⟨fo, s, d, f⟩ := res
  dsimp only at I hs hr ⊢
  subst hs
  exact I.finishOrder fun v => hr v (g.mem_nodeIdentifiers v)

/-! ## The second pass -/

section secondPass

variable {g : Graph n} {fo L₁ L₂ : List (Fin n)} {r : Fin n}

/-- `u` finished last among the nodes of its component. -/
def Leader (g : Graph n) (fo : List (Fin n)) (u : Fin n) : Prop :=
  ∀ w, g.SameScc u w → ¬ Before fo u w

namespace FinishOrder

/-- Whatever reaches a leader finished before it. -/
theorem leader_reach (F : FinishOrder g fo) {u v : Fin n} (hu : Leader g fo u) (h : g.Reach v u) :
    v = u ∨ Before fo v u := by
  rcases F.reach u v h with h' | h' | ⟨w, hw, -, h'⟩
  · exact .inl h'
  · exact .inr h'
  · exact absurd h' (hu w hw)

theorem exists_leader (F : FinishOrder g fo) (x : Fin n) : ∃ m, g.SameScc x m ∧ Leader g fo m := by
  classical
  obtain ⟨m, hm, hmax⟩ := Finset.exists_max_image (Finset.univ.filter (g.SameScc x ·))
    fo.indexOf ⟨x, by simpa using Graph.SameScc.refl x⟩
  simp only [Finset.mem_filter, Finset.mem_univ, true_and] at hm hmax
  refine ⟨m, hm, fun w hw hmw => ?_⟩
  have := ((before_iff_indexOf F.nodup).1 hmw).2.2
  exact absurd (hmax w (hm.trans hw)) (not_le.2 this)

end FinishOrder

theorem before_of_mem_left {y : Fin n} (hy : y ∈ L₁) : Before (L₁ ++ r :: L₂) y r :=
  (List.singleton_sublist.2 hy).append (List.singleton_sublist.2 (List.mem_cons_self r L₂))

theorem mem_left_of_before {y : Fin n} (hL : (L₁ ++ r :: L₂).Nodup)
    (h : Before (L₁ ++ r :: L₂) y r) : y ∈ L₁ := by
  by_contra hy
  have hr : r ∉ L₁ := fun h' => by
    simp only [List.nodup_append, List.nodup_cons] at hL
    exact hL.2.2 h' (List.mem_cons_self r L₂)
  have := ((before_iff_indexOf hL).1 h).2.2
  rw [List.indexOf_append_of_not_mem hy, List.indexOf_append_of_not_mem hr,
    List.indexOf_cons_self] at this
  omega

/-- The invariant of the second pass, having processed the prefix `L₁` of the reversed
finish order: the discovered map `D` is the union of the components of `L₁`, listed in
`sccs` one list per component, with no edge from a list to a later one. -/
structure SccInv (g : Graph n) (L₁ : List (Fin n)) (D : Finset (Fin n))
    (sccs : List (List (Fin n))) : Prop where
  mem_discovered : ∀ x, x ∈ D ↔ ∃ y ∈ L₁, g.SameScc x y
  nodup : sccs.flatten.Nodup
  mem_flatten : ∀ x, x ∈ sccs.flatten ↔ x ∈ D
  scc : ∀ c ∈ sccs, ∀ u ∈ c, ∀ v, v ∈ c ↔ g.SameScc u v
  order : ∀ i j (hi : i < sccs.length) (hj : j < sccs.length), i < j →
    ∀ u ∈ sccs[i], ∀ v ∈ sccs[j], ¬ g.Adj u v

namespace SccInv

variable {D : Finset (Fin n)} {sccs : List (List (Fin n))}

theorem init : SccInv g [] ∅ [] := ⟨by simp, by simp, by simp, by simp, by simp⟩

/-- The next root of the second pass, if undiscovered, is the leader of its component. -/
theorem leader (I : SccInv g L₁ D sccs) (F : FinishOrder g fo) (hL : fo.reverse = L₁ ++ r :: L₂)
    (hr : r ∉ D) : Leader g fo r := by
  intro w hw hrw
  have hnd : (L₁ ++ r :: L₂).Nodup := hL ▸ List.nodup_reverse.2 F.nodup
  have hw' := mem_left_of_before hnd (hL ▸ before_reverse.2 hrw)
  exact hr ((I.mem_discovered r).2 ⟨w, hw', hw⟩)

/-- From the next undiscovered root, the nodes reachable through undiscovered nodes are
exactly its component. -/
theorem reachAvoid_iff_sameScc (I : SccInv g L₁ D sccs) (F : FinishOrder g fo)
    (hL : fo.reverse = L₁ ++ r :: L₂) (hr : r ∉ D) (x : Fin n) :
    g.ReachAvoid D r x ↔ g.SameScc r x := by
  have hnd : (L₁ ++ r :: L₂).Nodup := hL ▸ List.nodup_reverse.2 F.nodup
  constructor
  · intro h
    by_contra hrx
    obtain ⟨m, hxm, hm⟩ := F.exists_leader x
    have hrm : g.Reach r m := h.reach.trans hxm.1
    rcases F.leader_reach hm hrm with rfl | h'
    · exact hrx hxm.symm
    · have hm' := mem_left_of_before hnd (hL ▸ before_reverse.2 h')
      exact h.not_mem hr ((I.mem_discovered x).2 ⟨m, hm', hxm⟩)
  · intro h
    refine Graph.reachAvoid_of_reach h.1 fun y hry hyx hy => hr ?_
    obtain ⟨z, hz, hyz⟩ := (I.mem_discovered y).1 hy
    exact (I.mem_discovered r).2 ⟨z, hz, (Graph.SameScc.of_reach hry hyx h.2).trans hyz⟩

/-- A root already discovered adds nothing. -/
theorem skip (I : SccInv g L₁ D sccs) (hr : r ∈ D) : SccInv g (L₁ ++ [r]) D sccs := by
  refine { I with mem_discovered := fun x => ⟨fun hx => ?_, fun ⟨y, hy, hxy⟩ => ?_⟩ }
  · obtain ⟨y, hy, hxy⟩ := (I.mem_discovered x).1 hx
    exact ⟨y, List.mem_append_left _ hy, hxy⟩
  · rcases List.mem_append.1 hy with hy | hy
    · exact (I.mem_discovered x).2 ⟨y, hy, hxy⟩
    · obtain rfl := List.mem_singleton.1 hy
      obtain ⟨z, hz, hyz⟩ := (I.mem_discovered y).1 hr
      exact (I.mem_discovered x).2 ⟨z, hz, hxy.trans hyz⟩

/-- An undiscovered root adds its component as a new list. -/
theorem add (I : SccInv g L₁ D sccs) (F : FinishOrder g fo) (hL : fo.reverse = L₁ ++ r :: L₂)
    (hr : r ∉ D) {C : List (Fin n)} (hC : C.Nodup) (hCmem : ∀ x, x ∈ C ↔ g.SameScc r x)
    {D' : Finset (Fin n)} (hD' : ∀ x, x ∈ D' ↔ x ∈ D ∨ x ∈ C) :
    SccInv g (L₁ ++ [r]) D' (sccs ++ [C]) := by
  have hnd : (L₁ ++ r :: L₂).Nodup := hL ▸ List.nodup_reverse.2 F.nodup
  have hCD : ∀ x ∈ C, x ∉ D := fun x hx hxD => by
    obtain ⟨z, hz, hxz⟩ := (I.mem_discovered x).1 hxD
    exact hr ((I.mem_discovered r).2 ⟨z, hz, ((hCmem x).1 hx).trans hxz⟩)
  refine ⟨fun x => ?_, ?_, fun x => ?_, ?_, ?_⟩
  · rw [hD', I.mem_discovered, hCmem]
    simp only [List.mem_append, List.mem_singleton]
    constructor
    · rintro (⟨y, hy, hxy⟩ | hrx)
      · exact ⟨y, .inl hy, hxy⟩
      · exact ⟨r, .inr rfl, hrx.symm⟩
    · rintro ⟨y, hy | rfl, hxy⟩
      · exact .inl ⟨y, hy, hxy⟩
      · exact .inr hxy.symm
  · rw [List.flatten_append, List.nodup_append]
    refine ⟨I.nodup, by simpa using hC, fun x hx hx' => hCD x (by simpa using hx')
      ((I.mem_flatten x).1 hx)⟩
  · rw [hD', List.flatten_append, List.mem_append, I.mem_flatten]; simp
  · intro c hc u hu v
    rcases List.mem_append.1 hc with hc | hc
    · exact I.scc c hc u hu v
    · obtain rfl := List.mem_singleton.1 hc
      rw [hCmem] at hu
      rw [hCmem]
      exact ⟨fun h => hu.symm.trans h, fun h => hu.trans h⟩
  · intro i j hi hj hij u hu v hv huv
    rw [List.length_append, List.length_singleton] at hi hj
    rw [List.getElem_append_left (by omega)] at hu
    by_cases hj' : j < sccs.length
    · rw [List.getElem_append_left hj'] at hv
      exact I.order i j (by omega) hj' hij u hu v hv huv
    · rw [List.getElem_concat_length _ _ j (by omega)] at hv
      obtain ⟨y, hy, huy⟩ := (I.mem_discovered u).1
        ((I.mem_flatten u).1 (List.mem_flatten.2 ⟨_, List.getElem_mem _, hu⟩))
      have hyr : g.Reach y r := huy.2.trans ((Graph.Reach.single huv).trans ((hCmem v).1 hv).2)
      rcases F.leader_reach (I.leader F hL hr) hyr with rfl | h'
      · exact hr ((I.mem_discovered y).2 ⟨y, hy, .refl y⟩)
      · have hry : Before (L₁ ++ r :: L₂) r y := hL ▸ before_reverse.2 h'
        exact Before.irrefl hnd r (hry.trans' hnd (before_of_mem_left hy))

end SccInv

theorem kosarajuSccs_inv (F : FinishOrder g fo) :
    ∀ (L₂ L₁ : List (Fin n)) (D : Finset (Fin n)) (s : List (Fin n)) (sccs : List (List (Fin n))),
      fo.reverse = L₁ ++ L₂ → SccInv g L₁ D sccs →
      ∃ D', SccInv g fo.reverse D' (kosarajuSccs g L₂ ⟨s, D⟩ sccs) := by
  intro L₂
  induction L₂ with
  | nil => intro L₁ D s sccs hL I; exact ⟨D, by simpa [hL] using I⟩
  | cons r L₂ ih =>
    intro L₁ D s sccs hL I
    rw [kosarajuSccs]
    have hL' : fo.reverse = (L₁ ++ [r]) ++ L₂ := by simp [hL]
    split_ifs with hr
    · exact ih _ D s sccs hL' (I.skip hr)
    · obtain ⟨hnd, hmem, hdisc, -⟩ := Dfs.drain_spec g hr s
      exact ih _ _ _ _ hL' (I.add F hL hr hnd
        (fun x => (hmem x).trans (I.reachAvoid_iff_sameScc F hL hr x)) hdisc)

end secondPass

/-- At the end of the second pass every node has been discovered and listed. -/
theorem kosarajuScc_inv (g : Graph n) :
    ∃ L D, SccInv g L D (kosarajuScc g) ∧ ∀ v, v ∈ (kosarajuScc g).flatten := by
  have F := kosarajuFinishOrder_complete g
  obtain ⟨D, I⟩ := kosarajuSccs_inv F _ [] ∅ [] [] (List.nil_append _).symm SccInv.init
  exact ⟨_, D, I, fun v =>
    (I.mem_flatten v).2 ((I.mem_discovered v).2 ⟨v, List.mem_reverse.2 (F.mem v), .refl v⟩)⟩

/-- Every list the second pass emits holds its root, so none is empty. -/
theorem kosarajuSccs_ne_nil (g : Graph n) : ∀ (L : List (Fin n)) (dfs : Dfs n)
    (sccs : List (List (Fin n))), (∀ c ∈ sccs, c ≠ []) → ∀ c ∈ kosarajuSccs g L dfs sccs, c ≠ []
  | [], _, _, h => h
  | i :: L, ⟨s, D⟩, sccs, h => by
    rw [kosarajuSccs]
    split_ifs with hi
    · exact kosarajuSccs_ne_nil g L _ sccs h
    · refine kosarajuSccs_ne_nil g L _ _ fun c hc => ?_
      rcases List.mem_append.1 hc with hc | hc
      · exact h c hc
      · rw [List.mem_singleton.1 hc]
        exact List.ne_nil_of_mem (((Dfs.drain_spec g hi s).2.1 i).2 .refl)

theorem kosarajuScc_ne_nil (g : Graph n) : ∀ c ∈ kosarajuScc g, c ≠ [] :=
  kosarajuSccs_ne_nil g _ _ [] fun _ h => absurd h (List.not_mem_nil _)

/-- Two nodes share a list of `kosaraju_scc` exactly when each reaches the other. -/
theorem kosarajuScc_together_iff (g : Graph n) (u v : Fin n) :
    (∃ c ∈ kosarajuScc g, u ∈ c ∧ v ∈ c) ↔ g.SameScc u v := by
  obtain ⟨_, _, I, hall⟩ := kosarajuScc_inv g
  refine ⟨fun ⟨c, hc, hu, hv⟩ => (I.scc c hc u hu v).1 hv, fun h => ?_⟩
  obtain ⟨c, hc, hu⟩ := List.mem_flatten.1 (hall u)
  exact ⟨c, hc, hu, (I.scc c hc u hu v).2 h⟩

/-- **`kosaraju_scc` is correct.**  Every node is in exactly one of the returned lists, two
nodes share a list iff each reaches the other, and for every edge `u → v` between two
lists, the list of `v` comes first. -/
theorem kosarajuScc_spec (g : Graph n) :
    ((kosarajuScc g).flatten.Nodup ∧ ∀ v, v ∈ (kosarajuScc g).flatten) ∧
    (∀ u v, (∃ c ∈ kosarajuScc g, u ∈ c ∧ v ∈ c) ↔ g.SameScc u v) ∧
    ∀ i j (hi : i < (kosarajuScc g).length) (hj : j < (kosarajuScc g).length) u v,
      u ∈ (kosarajuScc g)[i] → v ∈ (kosarajuScc g)[j] → g.Adj u v → i ≠ j → j < i := by
  obtain ⟨_, _, I, hall⟩ := kosarajuScc_inv g
  refine ⟨⟨I.nodup, hall⟩, kosarajuScc_together_iff g, fun i j hi hj u v hu hv huv hij => ?_⟩
  rcases Nat.lt_or_gt_of_ne hij with h | h
  · exact absurd huv (I.order i j hi hj h u hu v hv)
  · exact h

end Petgraph
