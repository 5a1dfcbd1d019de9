import PetgraphAlgo.Kosaraju
import PetgraphAlgo.Toposort
import Mathlib.Data.Fin.VecNotation

/-!
# The node `toposort` reports

When `toposort` returns `Err(Cycle(c))`, the node `c` lies on a cycle.  Phase 1 fails only on
a self-loop.  Phase 2 is the second pass of Kosaraju's algorithm run on `Reversed(g)`: phase 1
is a post-order traversal of `g`, so its finish order is fit for a second pass over the
reversed graph (`PostInv.finishOrder`), and the discovered map stays the union of the
components of the roots done so far (`SccInv`).  The second node a reverse traversal from a
root `i` meets is then an in-neighbour of `i` in the component of `i`.

* `toposortCheck_error`: a phase-2 error names an in-neighbour of a root that the root
  reaches.
* `toposort_error_on_cycle`: the node of every `Cycle` error lies on a cycle of `g`.
-/

namespace Petgraph

variable {n : ℕ} {g : Graph n}

/-- Phase 1, when it succeeds, finishes the nodes in an order fit for a second pass over
`Reversed(g)`. -/
theorem toposortRoots_finishOrder {dfs : DfsPostOrder n} {fs : List (Fin n)}
    (h : toposortRoots g g.nodeIdentifiers DfsPostOrder.empty [] = .ok (dfs, fs)) :
    FinishOrder g.reversed fs := by
  obtain ⟨I, hs, -, hr, -⟩ := toposortRoots_ok h PostInv.init rfl (by simp [DfsPostOrder.empty])
  obtain ⟨s, d, f⟩ := dfs
  simp only at hs hr
  subst hs
  exact PostInv.finishOrder (g := g.reversed) I fun v => hr v (g.mem_nodeIdentifiers v)

/-- From a node whose only successor outside `D` is itself, nothing else is reachable
through nodes outside `D`. -/
theorem Graph.ReachAvoid.eq_of_succ {G : Graph n} {D : Finset (Fin n)} {r x : Fin n}
    (hr : ∀ u, G.Adj r u → u ∉ D → u = r) (h : G.ReachAvoid D r x) : x = r := by
  induction h with
  | refl => rfl
  | tail _ hyz ih => subst ih; exact hr _ hyz.1 hyz.2

/-- The check of an undiscovered root `i` meets an undiscovered in-neighbour `p ≠ i` of `i`
first, or none. -/
theorem mem_pushUnvisited_incoming {D : Finset (Fin n)} {i p : Fin n} :
    p ∈ pushUnvisited (insert i D) (g.incoming i) [] ↔ g.Adj p i ∧ p ≠ i ∧ p ∉ D := by
  simp [Graph.Adj, g.mem_incoming]

/-- **Phase 2 names a node of a cycle.**  Over the rest `L₂` of the reversed finish order,
the discovered map holding the components of the prefix `L₁`, an error names an
in-neighbour `p ≠ i` of a root `i` that `i` reaches. -/
theorem toposortCheck_error {fo : List (Fin n)} (F : FinishOrder g.reversed fo) {c : Cycle n} :
    ∀ (L₂ L₁ : List (Fin n)) (D : Finset (Fin n)) (s : List (Fin n))
      (sccs : List (List (Fin n))), fo.reverse = L₁ ++ L₂ → SccInv g.reversed L₁ D sccs →
      toposortCheck g L₂ ⟨s, D⟩ = .error c → ∃ i, c.nodeId ≠ i ∧ g.Adj c.nodeId i ∧ g.Reach i c.nodeId := by
  intro L₂
  induction L₂ with
  | nil => intro _ _ _ _ _ _ h; cases h
  | cons r L₂ ih =>
    intro L₁ D s sccs hL I h
    have hL' : fo.reverse = (L₁ ++ [r]) ++ L₂ := by simp [hL]
    rw [toposortCheck] at h
    by_cases hr : r ∈ D
    · rw [toposortCheckRoot_of_mem s hr] at h
      exact ih _ D [] sccs hL' (I.skip hr) h
    · rw [toposortCheckRoot_of_not_mem s hr] at h
      rcases hp : pushUnvisited (insert r D) (g.incoming r) [] with _ | ⟨p, ps⟩ <;>
        rw [hp] at h <;> dsimp only at h
      · -- no in-neighbour outside the discovered map: `r` is a component of its own
        have hsucc : ∀ u, g.reversed.Adj r u → u ∉ D → u = r := fun u hu huD => by
          by_contra hur
          have := mem_pushUnvisited_incoming.2 ⟨Graph.adj_reversed.1 hu, hur, huD⟩
          simp [hp] at this
        refine ih _ _ [] _ hL' (I.add F hL hr (List.nodup_singleton r) (fun x => ?_)
          (fun x => by simp [or_comm])) h
        rw [List.mem_singleton, ← I.reachAvoid_iff_sameScc F hL hr]
        exact ⟨fun hx => hx ▸ .refl, fun hx => hx.eq_of_succ hsucc⟩
      · -- the first in-neighbour outside it lies in the component of `r`
        cases h
        obtain ⟨hadj, hpr, hpD⟩ := mem_pushUnvisited_incoming.1 (hp ▸ List.mem_cons_self p ps)
        have hscc := (I.reachAvoid_iff_sameScc F hL hr p).1
          (.single ⟨Graph.adj_reversed.2 hadj, hpD⟩)
        exact ⟨r, hpr, hadj, (Graph.sameScc_reversed.1 hscc).1⟩

/-- **The node of a `Cycle` error lies on a cycle.**  For every graph and every workspace,
when `toposort` returns `Err(c)`, the node `c` has a self-loop, or some other node `w` is
reachable from `c` and reaches `c`. -/
theorem toposort_error_on_cycle (g : Graph n) (space : Option (DfsSpace n)) (c : Cycle n)
    (h : toposort g space = .error c) :
    g.Adj c.nodeId c.nodeId ∨ ∃ w, w ≠ c.nodeId ∧ g.Reach c.nodeId w ∧ g.Reach w c.nodeId := by
  have h' : toposort g none = .error c := h
  rw [toposort_none] at h'
  cases h1 : toposortRoots g g.nodeIdentifiers DfsPostOrder.empty [] with
  | error c' =>
    rw [h1] at h'
    cases h'
    exact .inl (toposortRoots_error h1)
  | ok r =>
    obtain ⟨dfs, fs⟩ := r
    rw [h1] at h'
    dsimp only at h'
    cases h2 : toposortCheck g fs.reverse ⟨[], ∅⟩ with
    | ok _ => rw [h2] at h'; cases h'
    | error c' =>
      rw [h2] at h'
      cases h'
      obtain ⟨i, hne, hadj, hreach⟩ := toposortCheck_error (toposortRoots_finishOrder h1)
        fs.reverse [] ∅ [] [] rfl SccInv.init h2
      exact .inr ⟨i, Ne.symm hne, .single hadj, hreach⟩

/-- Two nodes, each the other's only neighbour. -/
def twoCycleGraph : Graph 2 where
  nodeIdentifiers := List.finRange 2
  neighbors := ![[1], [0]]
  incoming := ![[1], [0]]
  nodup_nodeIdentifiers := List.nodup_finRange 2
  mem_incoming := by decide
  mem_nodeIdentifiers := List.mem_finRange

/-- On the two-cycle, phase 2 finds the second node from the first root, and both lie on
the cycle. -/
theorem toposort_twoCycleGraph :
    toposort twoCycleGraph none = .error ⟨1⟩ ∧
      (twoCycleGraph.Adj 1 1 ∨ ∃ w, w ≠ 1 ∧ twoCycleGraph.Reach 1 w ∧ twoCycleGraph.Reach w 1) := by
  have h : toposort twoCycleGraph none = .error ⟨1⟩ := by
    simp [toposort_none, toposortRoots, toposortVisit, toposortCheck, toposortCheckRoot,
      Dfs.next, Dfs.next.loop, Dfs.moveTo, DfsPostOrder.empty, pushUnvisited, twoCycleGraph]
  exact ⟨h, toposort_error_on_cycle twoCycleGraph none ⟨1⟩ h⟩

end Petgraph
