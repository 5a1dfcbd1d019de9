import PetgraphAlgo.Toposort
import PetgraphAlgo.Reach

/-!
# `has_path_connecting` and the reuse of a `DfsSpace`

`has_path_connecting(g, from, to, space)` (`src/algo/mod.rs`) takes the caller's workspace
or a fresh one (`with_dfs`), resets it, restarts it at `from` and asks whether the traversal
ever yields `to` (`dfs.iter(g).any(|x| x == to)`).  `any` stops at the first match, so the
walk may end with nodes left on the stack; `toposort` may also leave the workspace half
used when it returns `Err(Cycle)`.  Both functions call `reset` first, which clears the
stack and the visit map, so what an earlier call left behind never matters.

* `Dfs.any_drain`: `any` over the traversal is `any` over what draining it yields.
* `hasPathConnecting_iff_reach`: the answer is reachability, `from == to` included.
* `dfsSpace_reuse`: neither function depends on the workspace it is given.
-/

namespace Petgraph

variable {n : ℕ}

/-- `dfs.iter(g).any(p)`: call `Dfs::next` until it yields a node satisfying `p` (`true`) or
`None` (`false`). -/
def Dfs.iterAny (g : Graph n) (p : Fin n → Bool) (dfs : Dfs n) : Bool :=
  match _h : Dfs.next g dfs with
  | (none, _) => false
  | (some x, dfs') => if p x then true else Dfs.iterAny g p dfs'
termination_by n - dfs.discovered.card
decreasing_by have := Dfs.card_next_some _h; omega

/-- `has_path_connecting(g, a, b, space)`. -/
def hasPathConnecting (g : Graph n) (a b : Fin n) (space : Option (DfsSpace n)) : Bool :=
  Dfs.iterAny g (· == b) (((withDfs space).reset).moveTo a)

/-- `any` over the traversal is `any` over the nodes a full drain yields. -/
theorem Dfs.any_drain (g : Graph n) (p : Fin n → Bool) (dfs : Dfs n) (out : List (Fin n)) :
    (Dfs.drain g dfs out).1.any p = (out.any p || Dfs.iterAny g p dfs) := by
  induction dfs, out using Dfs.drain.induct g with
  | case1 dfs out dfs' h => rw [Dfs.drain, Dfs.iterAny, h]; simp
  | case2 dfs out x dfs' h ih =>
    rw [Dfs.drain, Dfs.iterAny, h, ih]
    by_cases hx : p x <;> simp [hx]

/-- Avoiding no node is no constraint. -/
theorem Graph.reachAvoid_empty {g : Graph n} {a b : Fin n} : g.ReachAvoid ∅ a b ↔ g.Reach a b :=
  ⟨Graph.ReachAvoid.reach, fun h => Graph.reachAvoid_of_reach h fun _ _ _ => Finset.not_mem_empty _⟩

/-- **`has_path_connecting` decides reachability.**  Without a workspace it returns `true`
exactly when a walk of length zero or more leads from `a` to `b` along `g.neighbors`. -/
theorem hasPathConnecting_iff_reach (g : Graph n) (a b : Fin n) :
    hasPathConnecting g a b none = true ↔ g.Reach a b := by
  obtain ⟨-, hmem, -⟩ := Dfs.drain_spec g (Finset.not_mem_empty a) []
  have hany := Dfs.any_drain g (· == b) (Dfs.moveTo ⟨[], ∅⟩ a) []
  rw [List.any_nil, Bool.false_or] at hany
  rw [hasPathConnecting, ← Graph.reachAvoid_empty, ← hmem, withDfs, Dfs.reset, Dfs.empty, ← hany]
  simp

/-- `reset` forgets the workspace: whatever state `with_dfs` hands over, it is cleared. -/
theorem withDfs_reset (space : Option (DfsSpace n)) : (withDfs space).reset = Dfs.empty := rfl

/-- **Reusing a workspace changes nothing.**  For every workspace, in whatever state earlier
calls left it (a `toposort` that returned `Err(Cycle)` half way, a search that `any` cut
short), `toposort` and `has_path_connecting` return what they return with a fresh one. -/
theorem dfsSpace_reuse (g : Graph n) (ws : DfsSpace n) :
    toposort g (some ws) = toposort g none ∧
      ∀ a b, hasPathConnecting g a b (some ws) = hasPathConnecting g a b none := by
  refine ⟨?_, fun a b => ?_⟩ <;>
    simp only [toposort, hasPathConnecting, withDfs_reset]

end Petgraph
