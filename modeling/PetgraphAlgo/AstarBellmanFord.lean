import PetgraphAlgo.Astar
import PetgraphAlgo.BellmanFord
import Mathlib.Algebra.Order.AddGroupWithTop

/-!
# A* against Bellman-Ford

`astar(g, start, is_goal, |e| *e.weight(), |_| 0)` (`src/astar.rs`) and
`bellman_ford(g, start)` (`src/algo/mod.rs`) on one graph whose weights are non-negative
elements of `WithTop α`, `⊤` standing for `infinite()`.

With the estimate `|_| 0` the A* loop is Dijkstra's, and `Astar.loop_spec` applies: a run
returns `None` exactly when no goal is reachable, and otherwise the nodes of a cheapest walk
to a goal.  Bellman-Ford meets no negative cycle, so it returns `Ok`, with distances that
are the least walk costs.  `astar_zero_estimate_bellmanFord` puts the two together.  A
returned path costs the least distance of any goal.  The two disagree only where an edge
weighs `infinite()`: a goal reached only through such an edge is found by `astar` but is at
distance `infinite()` for `bellman_ford` (`astar_infinite_edge_found`).
-/

namespace Petgraph

open Network

variable {n : ℕ} {α : Type} [LinearOrderedAddCommGroup α]

/-- What a run of `astar` with the estimate `|_| 0` returns, against the distances of
`bellman_ford` from the same node. -/
structure AgreesWithDistance (g : Network n (WithTop α)) (start : Fin n) (isGoal : Fin n → Bool)
    (distance : Fin n → WithTop α) (r : Option (List (Fin n))) : Prop where
  /-- `None` exactly when no goal can be reached. -/
  none_iff : r = none ↔ ∀ t, isGoal t = true → ∀ q, ¬ g.IsWalk start q t
  /-- With finite weights, `None` exactly when every goal is at distance `infinite()`. -/
  none_iff_top : (∀ u, ∀ e ∈ g.edges u, e.weight ≠ ⊤) →
    (r = none ↔ ∀ t, isGoal t = true → distance t = ⊤)
  /-- A path lists the nodes of a walk to a goal that costs that goal's distance, which is
  the least distance of any goal. -/
  some_path : ∀ path, r = some path → ∃ t q, isGoal t = true ∧ g.IsWalk start q t ∧
    walkNodes start q = path ∧ walkCost EdgeRef.weight q = distance t ∧
    ∀ t', isGoal t' = true → distance t ≤ distance t'

variable {g : Network n (WithTop α)} {start : Fin n}

/-- Non-negative weights leave no negative cycle for Bellman-Ford to find. -/
theorem not_negCycleFrom_of_nonneg (hw : ∀ u, ∀ e ∈ g.edges u, 0 ≤ e.weight) :
    ¬ g.NegCycleFrom EdgeRef.weight start :=
  fun ⟨_, _, _, hcyc, hneg⟩ => (walkCost_nonneg hw hcyc).not_lt hneg

/-- A distance that bounds every walk and is attained unless infinite is at most any bound of
every walk to the same node. -/
theorem distance_le_of_forall {distance : Fin n → WithTop α}
    (hatt : ∀ v, distance v = ⊤ ∨ ∃ q, g.IsWalk start q v ∧ walkCost EdgeRef.weight q = distance v)
    {t : Fin n} {a : WithTop α} (ha : ∀ q, g.IsWalk start q t → a ≤ walkCost EdgeRef.weight q) :
    a ≤ distance t := by
  rcases hatt t with h | ⟨q, hq, hc⟩
  · exact h ▸ le_top
  · exact hc ▸ ha q hq

/-- **A* against Bellman-Ford.**  On a graph with non-negative weights, `astar` with the
estimate `|_| 0` returns on every run, `bellman_ford` returns `Ok`, and every result of
`astar` agrees with `bellman_ford`'s distances: `None` exactly when no goal is reachable (with
finite weights: when every goal is at distance `infinite()`), and otherwise a path to a goal
costing the least distance of any goal. -/
theorem astar_zero_estimate_bellmanFord (g : Network n (WithTop α)) (start : Fin n)
    (isGoal : Fin n → Bool) (hw : ∀ u, ∀ e ∈ g.edges u, 0 ≤ e.weight) :
    (∃ r, Astar g start isGoal EdgeRef.weight (fun _ => 0) r) ∧
    ∃ distance predecessor, bellmanFord g start = .ok (distance, predecessor) ∧
      ∀ r, Astar g start isGoal EdgeRef.weight (fun _ => 0) r →
        AgreesWithDistance g start isGoal distance r := by
  obtain ⟨distance, predecessor, hok⟩ :
      ∃ distance predecessor, bellmanFord g start = .ok (distance, predecessor) :=
    ⟨_, _, BellmanFord.ok_of_not_negCycle (not_negCycleFrom_of_nonneg hw)⟩
  obtain ⟨hle, hatt⟩ := BellmanFord.ok_distance hok
  refine ⟨astar_returns g start isGoal _ _, distance, predecessor, hok, fun r h => ?_⟩
  obtain ⟨hnone, hsome⟩ := Astar.loop_spec (K := WithTop α) (fun u e he => by simpa using hw u e he)
    (fun _ _ _ h => by simpa using h) (fun _ _ => rfl) Astar.inv_init h
  have hnone_iff : r = none ↔ ∀ t, isGoal t = true → ∀ q, ¬ g.IsWalk start q t := by
    refine ⟨hnone, fun hno => ?_⟩
    cases r with
    | none => rfl
    | some path =>
      obtain ⟨t, q, ht, hq, -⟩ := hsome path rfl
      exact absurd hq (hno t ht q)
  refine ⟨hnone_iff, fun hfin => hnone_iff.trans ?_, fun path hpath => ?_⟩
  · refine forall_congr' fun t => imp_congr_right fun _ => ⟨fun hno => ?_, fun htop q hq => ?_⟩
    · exact top_le_iff.1 (distance_le_of_forall hatt fun q hq => absurd hq (hno q))
    · exact walkCost_ne_top hfin hq (top_le_iff.1 (htop ▸ hle t q hq))
  · obtain ⟨t, q, ht, hq, hnodes, hopt⟩ := hsome path hpath
    have hcost : walkCost EdgeRef.weight q = distance t :=
      le_antisymm (distance_le_of_forall hatt (hopt t · ht)) (hle t q hq)
    exact ⟨t, q, ht, hq, hnodes, hcost, fun t' ht' =>
      hcost ▸ distance_le_of_forall hatt (hopt t' · ht')⟩

/-- The documented graph of `bellman_ford`, with `f` as the goal. -/
theorem astar_docNetwork_agrees :
    (∀ u, ∀ e ∈ docNetwork.edges u, 0 ≤ e.weight) ∧
    (∃ r, Astar docNetwork 0 (· == 5) EdgeRef.weight (fun _ => 0) r) ∧
    ∃ distance predecessor, bellmanFord docNetwork 0 = .ok (distance, predecessor) ∧
      ∀ r, Astar docNetwork 0 (· == 5) EdgeRef.weight (fun _ => 0) r →
        AgreesWithDistance docNetwork 0 (· == 5) distance r :=
  ⟨by decide, astar_zero_estimate_bellmanFord docNetwork 0 _ (by decide)⟩

/-- Node `1` is reached only through an edge of weight `infinite()`: every run of `astar`
returns the path to it, while `bellman_ford` leaves it at distance `infinite()`. -/
theorem astar_infinite_edge_found :
    (∀ r, Astar infiniteEdgeNetwork 0 (· == 1) EdgeRef.weight (fun _ => 0) r ↔
      r = some [0, 1]) ∧
    ∃ distance predecessor, bellmanFord infiniteEdgeNetwork 0 = .ok (distance, predecessor) ∧
      distance 1 = ⊤ := by
  refine ⟨fun r => ?_, _, _, by simp only [bellmanFord]; rw [if_neg (by decide)], by decide⟩
  refine (Astar.loop_iff_expand (f := 0) (v := 0) (s := 0) ?_ rfl ?_ ?_).trans <|
    Astar.loop_iff_goal (f := ⊤) (v := 1) ?_ rfl ?_
  all_goals decide

end Petgraph
