import PetgraphAlgo.Network
import Mathlib.Data.Multiset.Basic
import Mathlib.Data.Finset.Max
import Mathlib.Data.Fin.VecNotation
import Mathlib.Algebra.Order.Ring.Int
import Mathlib.Algebra.Order.Ring.Nat
import Mathlib.Data.ZMod.Defs

/-!
# A*

`astar(graph, start, is_goal, edge_cost, estimate_cost)` (`src/astar.rs`).  The state at
the head of the loop is the visit map, the heap `visit_next` of `MinScored(estimate, node)`
entries, the `scores` map and the path tracker's `came_from` map.  `BinaryHeap::pop` hands
out an entry of least estimate; which one of several such entries it picks depends on the
heap's internal layout, so the loop is modelled as a relation (`Astar.Loop`) over every
choice, and a result proved for all runs holds whichever entry the heap picks.  The
`scores.get(&node).unwrap()` of an expanded node is a step the relation cannot take when the
score is missing; `exists_loop` shows a run always reaches a result, so this never happens.

The invariant `Astar.Inv` follows Dijkstra's argument.  Visited nodes are settled at their
least walk cost, every node with a score but not yet visited has its latest score in the
heap, and every edge out of a visited node has been relaxed.  Along every walk from `start`
to an unvisited node there is then an unvisited node whose score is at most the cost of the
walk up to it (`Inv.frontier_walk`).  With an estimate that is consistent
(`h(u) ≤ edge_cost(e) + h(v)` for every edge `u → v`) and zero on goals, the popped entry
never costs more than any walk to an unvisited node (`Inv.pop_le`).

* `astar_returns`: whatever the costs, some run of the loop ends.
* `Astar.loop_spec`: a run that returns `None` has explored everything reachable and found
  no goal.  A run that returns `Some(path)` returns the nodes of a walk to a goal that costs
  no more than any walk to any goal.
* `astar_consistent_optimal`: so every path `astar` returns is a cheapest one.
* `astar_admissible_suboptimal`: with an admissible estimate that is not consistent, the
  closed-set skip can discard the cheaper route to an expanded node, and `astar` returns a
  path that is not the cheapest.  So the comment on that skip, that "the first time it was
  visited it was using the shortest available path", holds only for consistent estimates.

Where the heap has a single entry of least estimate at every pop, the run is determined
(`loop_iff_expand`, `loop_iff_goal`), and on a concrete graph `decide` follows it.
-/

namespace Petgraph

open Network

variable {n : ℕ} {E K : Type}

/-- The state of `astar` at the head of its loop. -/
structure AstarState (n : ℕ) (K : Type) where
  /-- `visited`, the visit map. -/
  visited : Finset (Fin n)
  /-- `visit_next`: the `MinScored(estimate, node)` entries of the heap. -/
  visitNext : Multiset (K × Fin n)
  scores : Fin n → Option K
  /-- `path_tracker.came_from`. -/
  cameFrom : Fin n → Option (Fin n)

namespace Astar

/-- The loop of `reconstruct_path_to`, for at most `fuel` rounds: while `came_from` has an
entry for `current`, push it and move to it. -/
def followCameFrom (cameFrom : Fin n → Option (Fin n)) : ℕ → Fin n → List (Fin n)
  | 0, _ => []
  | k + 1, current =>
    match cameFrom current with
    | some previous => previous :: followCameFrom cameFrom k previous
    | none => []

/-- `path_tracker.reconstruct_path_to(last)`.  The loop of the code has no bound; `n` rounds
are always enough on the states `astar` reaches (`followCameFrom_eq`). -/
def reconstructPathTo (cameFrom : Fin n → Option (Fin n)) (last : Fin n) : List (Fin n) :=
  (last :: followCameFrom cameFrom n last).reverse

section Model

variable [LinearOrder K] [Add K] [Zero K] (g : Network n E) (edgeCost : EdgeRef n E → K)
  (estimateCost : Fin n → K)

/-- The body of `for edge in graph.edges(node)` for one edge, with `node_score` the score
of the node being expanded.  An edge into a visited node is skipped; otherwise the target's
score is lowered (or set) when the new route is cheaper, and in every case an entry with
the target's score plus its estimate is pushed.  `+` is `K`'s, and always returns: for
`w`-bit integers it wraps, as in a release build; a debug build panics where a sum overflows,
which `AstarChecked` models. -/
def relaxNext (node : Fin n) (nodeScore : K) (st : AstarState n K) (e : EdgeRef n E) :
    AstarState n K :=
  if e.target ∈ st.visited then st
  else
    match st.scores e.target with
    | some oldScore =>
      if nodeScore + edgeCost e < oldScore then
        { st with
          scores := Function.update st.scores e.target (some (nodeScore + edgeCost e))
          cameFrom := Function.update st.cameFrom e.target (some node)
          visitNext :=
            (nodeScore + edgeCost e + estimateCost e.target, e.target) ::ₘ st.visitNext }
      else
        { st with visitNext := (oldScore + estimateCost e.target, e.target) ::ₘ st.visitNext }
    | none =>
      { st with
        scores := Function.update st.scores e.target (some (nodeScore + edgeCost e))
        cameFrom := Function.update st.cameFrom e.target (some node)
        visitNext := (nodeScore + edgeCost e + estimateCost e.target, e.target) ::ₘ st.visitNext }

/-- Expanding `node` with score `node_score`: `visited.visit(node)`, then the edges of
`graph.edges(node)` in order. -/
def expand (node : Fin n) (nodeScore : K) (st : AstarState n K) : AstarState n K :=
  (g.edges node).foldl (relaxNext edgeCost estimateCost node nodeScore)
    { st with visited := insert node st.visited }

/-- Before the loop: `scores = {start: 0}` and one entry `MinScored(estimate_cost(start),
start)`. -/
def init (start : Fin n) : AstarState n K :=
  ⟨∅, {(estimateCost start, start)}, Function.update (fun _ => none) start (some 0),
    fun _ => none⟩

/-- `visit_next.pop()` can return `MinScored(f, node)`: an entry of least estimate. -/
def IsPop (st : AstarState n K) (f : K) (node : Fin n) : Prop :=
  (f, node) ∈ st.visitNext ∧ ∀ x ∈ st.visitNext, f ≤ x.1

variable (isGoal : Fin n → Bool)

/-- `Loop st r`: the loop `while let Some(MinScored(_, node)) = visit_next.pop()`, run from
`st`, can end with `astar` returning `r`. -/
inductive Loop : AstarState n K → Option (List (Fin n)) → Prop
  /-- The heap is empty: `None`. -/
  | exhausted {st : AstarState n K} : st.visitNext = 0 → Loop st none
  /-- `is_goal(node)`: the path to `node`. -/
  | goal {st : AstarState n K} {f : K} {node : Fin n} : IsPop st f node → isGoal node = true →
      Loop st (some (reconstructPathTo st.cameFrom node))
  /-- `!visited.visit(node)`: `continue`. -/
  | skip {st : AstarState n K} {f : K} {node : Fin n} {r : Option (List (Fin n))} :
      IsPop st f node → isGoal node = false → node ∈ st.visited →
      Loop { st with visitNext := st.visitNext.erase (f, node) } r → Loop st r
  /-- A node visited for the first time is expanded with its score. -/
  | expand {st : AstarState n K} {f : K} {node : Fin n} {s : K} {r : Option (List (Fin n))} :
      IsPop st f node → isGoal node = false → node ∉ st.visited → st.scores node = some s →
      Loop (expand g edgeCost estimateCost node s
        { st with visitNext := st.visitNext.erase (f, node) }) r → Loop st r

end Model

/-! ## One edge of an expansion -/

section Steps

variable [LinearOrder K] [Add K] {edgeCost : EdgeRef n E → K}
  {estimateCost : Fin n → K} {node : Fin n} {s : K}

/-- What one edge of an expansion can do. -/
theorem relaxNext_cases (edgeCost : EdgeRef n E → K) (estimateCost : Fin n → K) (node : Fin n)
    (s : K) (st : AstarState n K) (e : EdgeRef n E) :
    (e.target ∈ st.visited ∧ relaxNext edgeCost estimateCost node s st e = st) ∨
    (e.target ∉ st.visited ∧ ∃ old, st.scores e.target = some old ∧ ¬ s + edgeCost e < old ∧
      relaxNext edgeCost estimateCost node s st e =
        { st with visitNext := (old + estimateCost e.target, e.target) ::ₘ st.visitNext }) ∨
    (e.target ∉ st.visited ∧ (∀ old, st.scores e.target = some old → s + edgeCost e < old) ∧
      relaxNext edgeCost estimateCost node s st e =
        { st with
          scores := Function.update st.scores e.target (some (s + edgeCost e))
          cameFrom := Function.update st.cameFrom e.target (some node)
          visitNext := (s + edgeCost e + estimateCost e.target, e.target) ::ₘ st.visitNext }) := by
  unfold relaxNext
  split_ifs with hv
  · exact .inl ⟨hv, rfl⟩
  · cases ho : st.scores e.target with
    | none => exact .inr (.inr ⟨hv, by simp, rfl⟩)
    | some old =>
      simp only
      split_ifs with hlt
      · exact .inr (.inr ⟨hv, by simpa using hlt, rfl⟩)
      · exact .inr (.inl ⟨hv, old, rfl, hlt, rfl⟩)

@[simp] theorem relaxNext_visited (st : AstarState n K) (e : EdgeRef n E) :
    (relaxNext edgeCost estimateCost node s st e).visited = st.visited := by
  rcases relaxNext_cases edgeCost estimateCost node s st e with ⟨-, h⟩ | ⟨-, _, -, -, h⟩ | ⟨-, -, h⟩ <;>
    rw [h]

/-- Scores only go down, and never disappear. -/
theorem relaxNext_scores_le (st : AstarState n K) (e : EdgeRef n E) {v : Fin n} {a : K}
    (hv : st.scores v = some a) :
    ∃ a', (relaxNext edgeCost estimateCost node s st e).scores v = some a' ∧ a' ≤ a := by
  rcases relaxNext_cases edgeCost estimateCost node s st e with ⟨-, h⟩ | ⟨-, _, -, -, h⟩ | ⟨-, hlt, h⟩ <;>
    rw [h]
  · exact ⟨a, hv, le_rfl⟩
  · exact ⟨a, hv, le_rfl⟩
  · by_cases hve : v = e.target
    · subst hve; exact ⟨_, by simp, (hlt a hv).le⟩
    · exact ⟨a, by simpa [hve] using hv, le_rfl⟩

/-- The score of a visited node does not change. -/
theorem relaxNext_scores_visited (st : AstarState n K) (e : EdgeRef n E) {v : Fin n}
    (hv : v ∈ st.visited) : (relaxNext edgeCost estimateCost node s st e).scores v = st.scores v := by
  rcases relaxNext_cases edgeCost estimateCost node s st e with ⟨-, h⟩ | ⟨-, _, -, -, h⟩ | ⟨ht, -, h⟩ <;>
    rw [h]
  exact Function.update_noteq (fun h : v = e.target => ht (h ▸ hv)) _ _

theorem relaxNext_cameFrom_visited (st : AstarState n K) (e : EdgeRef n E) {v : Fin n}
    (hv : v ∈ st.visited) :
    (relaxNext edgeCost estimateCost node s st e).cameFrom v = st.cameFrom v := by
  rcases relaxNext_cases edgeCost estimateCost node s st e with ⟨-, h⟩ | ⟨-, _, -, -, h⟩ | ⟨ht, -, h⟩ <;>
    rw [h]
  exact Function.update_noteq (fun h : v = e.target => ht (h ▸ hv)) _ _

theorem relaxNext_visitNext (st : AstarState n K) (e : EdgeRef n E) {x : K × Fin n}
    (hx : x ∈ st.visitNext) : x ∈ (relaxNext edgeCost estimateCost node s st e).visitNext := by
  rcases relaxNext_cases edgeCost estimateCost node s st e with ⟨-, h⟩ | ⟨-, _, -, -, h⟩ | ⟨-, -, h⟩ <;>
    rw [h] <;> simp [hx]

theorem foldl_induction {P : AstarState n K → Prop} {L : List (EdgeRef n E)}
    (hstep : ∀ st, ∀ e ∈ L, P st → P (relaxNext edgeCost estimateCost node s st e))
    {st : AstarState n K} (h : P st) : P (L.foldl (relaxNext edgeCost estimateCost node s) st) := by
  induction L generalizing st with
  | nil => exact h
  | cons e L ih =>
    exact ih (fun st e he => hstep st e (List.mem_cons_of_mem _ he))
      (hstep st e (List.mem_cons_self _ _) h)

@[simp] theorem expand_visited (g : Network n E) (st : AstarState n K) :
    (expand g edgeCost estimateCost node s st).visited = insert node st.visited :=
  foldl_induction (P := fun st' => st'.visited = insert node st.visited)
    (fun _ _ _ h => (relaxNext_visited _ _).trans h) rfl

/-- Every entry of the heap is for a node with a score. -/
def HeapScored (st : AstarState n K) : Prop := ∀ x ∈ st.visitNext, ∃ a, st.scores x.2 = some a

theorem HeapScored.relax {st : AstarState n K} (h : HeapScored st) (e : EdgeRef n E) :
    HeapScored (relaxNext edgeCost estimateCost node s st e) := by
  have hold : ∀ x ∈ st.visitNext,
      ∃ a, (relaxNext edgeCost estimateCost node s st e).scores x.2 = some a := fun x hx =>
    let ⟨_, ha⟩ := h x hx
    (relaxNext_scores_le st e ha).imp fun _ h => h.1
  rcases relaxNext_cases edgeCost estimateCost node s st e with ⟨-, hst⟩ | ⟨-, old, hold', -, hst⟩ |
      ⟨-, -, hst⟩ <;> rw [hst] at hold ⊢ <;> intro x hx
  · exact hold x hx
  · rcases Multiset.mem_cons.1 hx with rfl | hx
    · exact ⟨old, hold'⟩
    · exact hold x hx
  · rcases Multiset.mem_cons.1 hx with rfl | hx
    · exact ⟨s + edgeCost e, by simp⟩
    · exact hold x hx

end Steps

/-! ## Termination -/

section Termination

variable [LinearOrder K] [Add K] (g : Network n E) (edgeCost : EdgeRef n E → K)
  (estimateCost : Fin n → K) (isGoal : Fin n → Bool)

theorem HeapScored.expand {st : AstarState n K} (h : HeapScored st) (node : Fin n) (s : K) :
    HeapScored (expand g edgeCost estimateCost node s st) :=
  foldl_induction (fun _ e _ h => h.relax e) h

omit [Add K] in
theorem HeapScored.erase {st : AstarState n K} (h : HeapScored st) (x : K × Fin n) :
    HeapScored { st with visitNext := st.visitNext.erase x } :=
  fun y hy => h y (Multiset.mem_of_mem_erase hy)

omit [LinearOrder K] [Add K] in
theorem heapScored_init [Zero K] (start : Fin n) : HeapScored (init estimateCost start) := by
  intro x hx
  simp only [init, Multiset.mem_singleton] at hx
  exact ⟨0, by simp [hx, init]⟩

/-- **Termination.**  From a state whose heap entries all have scores, some run of the loop
returns: an expansion visits a new node, and every other round shrinks the heap.  On the way
`scores.get(&node).unwrap()` always finds the score. -/
theorem exists_loop (st : AstarState n K) (h : HeapScored st) :
    ∃ r, Loop g edgeCost estimateCost isGoal st r := by
  by_cases h0 : st.visitNext = 0
  · exact ⟨none, .exhausted h0⟩
  obtain ⟨x, hx, hmin⟩ :=
    st.visitNext.toFinset.exists_min_image Prod.fst (Multiset.toFinset_nonempty.2 h0)
  have hpop : IsPop st x.1 x.2 :=
    ⟨Multiset.mem_toFinset.1 hx, fun y hy => hmin y (Multiset.mem_toFinset.2 hy)⟩
  cases hg : isGoal x.2
  · by_cases hv : x.2 ∈ st.visited
    · obtain ⟨r, hr⟩ := exists_loop _ (h.erase (x.1, x.2))
      exact ⟨r, .skip hpop hg hv hr⟩
    · obtain ⟨a, ha⟩ := h _ hpop.1
      obtain ⟨r, hr⟩ := exists_loop _ ((h.erase (x.1, x.2)).expand g edgeCost estimateCost x.2 a)
      exact ⟨r, .expand hpop hg hv ha hr⟩
  · exact ⟨_, .goal hpop hg⟩
termination_by (n - st.visited.card, Multiset.card st.visitNext)
decreasing_by
  · exact Prod.Lex.right _ (Multiset.card_erase_lt_of_mem hpop.1)
  · have hcard : st.visited.card < n := by simpa using Finset.card_lt_univ_of_not_mem hv
    refine Prod.Lex.left _ _ ?_
    simp only [expand_visited, Finset.card_insert_of_not_mem hv]
    omega

end Termination

/-! ## Runs with one choice at every pop -/

section Determinism

variable [LinearOrder K] [Add K] {g : Network n E} {edgeCost : EdgeRef n E → K}
  {estimateCost : Fin n → K} {isGoal : Fin n → Bool} {st : AstarState n K} {f s : K}
  {v : Fin n} {r : Option (List (Fin n))}

/-- `visit_next.pop()` must return `MinScored(f, v)`: it is the only entry of least estimate,
so the heap's layout plays no part. -/
def UniquePop (st : AstarState n K) (f : K) (v : Fin n) : Prop :=
  (f, v) ∈ st.visitNext ∧ ∀ x ∈ st.visitNext, (∀ y ∈ st.visitNext, x.1 ≤ y.1) ↔ x = (f, v)

instance : Decidable (UniquePop st f v) :=
  inferInstanceAs (Decidable ((f, v) ∈ st.visitNext ∧
    ∀ x ∈ st.visitNext, (∀ y ∈ st.visitNext, x.1 ≤ y.1) ↔ x = (f, v)))

omit [Add K] in
theorem UniquePop.isPop (h : UniquePop st f v) : IsPop st f v := ⟨h.1, (h.2 _ h.1).2 rfl⟩

omit [Add K] in
theorem UniquePop.eq_of_isPop (h : UniquePop st f v) {f' : K} {v' : Fin n}
    (hp : IsPop st f' v') : f' = f ∧ v' = v :=
  Prod.mk.inj_iff.1 ((h.2 _ hp.1).1 hp.2)

/-- When the one entry `pop()` can return is a goal, every run returns the path to it. -/
theorem loop_iff_goal (h : UniquePop st f v) (hg : isGoal v = true) {path : List (Fin n)}
    (hpath : reconstructPathTo st.cameFrom v = path) :
    Loop g edgeCost estimateCost isGoal st r ↔ r = some path := by
  subst hpath
  refine ⟨fun hl => ?_, by rintro rfl; exact .goal h.isPop hg⟩
  cases hl with
  | exhausted h0 => exact absurd (h0 ▸ h.1) (Multiset.not_mem_zero _)
  | goal hp => obtain ⟨-, rfl⟩ := h.eq_of_isPop hp; rfl
  | skip hp hg' => obtain ⟨-, rfl⟩ := h.eq_of_isPop hp; simp [hg] at hg'
  | expand hp hg' => obtain ⟨-, rfl⟩ := h.eq_of_isPop hp; simp [hg] at hg'

/-- When the one entry `pop()` can return is an unvisited node that is not a goal, every run
goes on from the expansion of that node. -/
theorem loop_iff_expand (h : UniquePop st f v) (hg : isGoal v = false) (hv : v ∉ st.visited)
    (hs : st.scores v = some s) :
    Loop g edgeCost estimateCost isGoal st r ↔ Loop g edgeCost estimateCost isGoal
      (expand g edgeCost estimateCost v s { st with visitNext := st.visitNext.erase (f, v) }) r := by
  refine ⟨fun hl => ?_, .expand h.isPop hg hv hs⟩
  cases hl with
  | exhausted h0 => exact absurd (h0 ▸ h.1) (Multiset.not_mem_zero _)
  | goal hp hg' => obtain ⟨-, rfl⟩ := h.eq_of_isPop hp; simp [hg] at hg'
  | skip hp _ hv' => obtain ⟨-, rfl⟩ := h.eq_of_isPop hp; exact absurd hv' hv
  | expand hp _ _ hs' hl =>
    obtain ⟨rfl, rfl⟩ := h.eq_of_isPop hp
    obtain rfl := Option.some.inj (hs.symm.trans hs')
    exact hl

end Determinism

/-! ## The invariant -/

section Invariant

variable [LinearOrderedAddCommMonoid K] (g : Network n E) (edgeCost : EdgeRef n E → K)
  (estimateCost : Fin n → K) (isGoal : Fin n → Bool) (start : Fin n)

/-- The edge `e` out of `u` has been relaxed: its target is visited, or scored no higher than
`u`'s score plus the edge's cost. -/
def Relaxed (st : AstarState n K) (u : Fin n) (e : EdgeRef n E) : Prop :=
  e.target ∈ st.visited ∨
    ∃ su t, st.scores u = some su ∧ st.scores e.target = some t ∧ t ≤ su + edgeCost e

/-- What holds at the head of the loop on every run from `start`, and also between two edges
of an expansion. -/
structure Core (st : AstarState n K) : Prop where
  start_score : st.scores start = some 0
  start_cameFrom : st.cameFrom start = none
  start_visited : st.visited = ∅ ∨ start ∈ st.visited
  empty_pop : st.visited = ∅ → ∀ x ∈ st.visitNext, x.2 = start
  visited_not_goal : ∀ v ∈ st.visited, isGoal v = false
  /-- A visited node is settled: no walk to it costs less than its score. -/
  visited_score : ∀ v ∈ st.visited, ∃ s, st.scores v = some s ∧
    ∀ q, g.IsWalk start q v → s ≤ walkCost edgeCost q
  /-- An entry's estimate is at least its node's score plus the node's estimate. -/
  heap_score : ∀ x ∈ st.visitNext, ∃ s, st.scores x.2 = some s ∧ s + estimateCost x.2 ≤ x.1
  /-- An unvisited node with a score has an entry for that score. -/
  heap_latest : ∀ v ∉ st.visited, ∀ s, st.scores v = some s →
    (s + estimateCost v, v) ∈ st.visitNext
  /-- A link `u = came_from[v]` is an edge `u → v` out of a visited node, and the score rises
  by exactly its cost. -/
  link : ∀ v u, st.cameFrom v = some u → u ∈ st.visited ∧ ∃ su sv, st.scores u = some su ∧
    st.scores v = some sv ∧ ∃ e ∈ g.edges u, e.target = v ∧ su + edgeCost e = sv
  scored_link : ∀ v s, st.scores v = some s → v ≠ start → st.cameFrom v ≠ none
  acyclic : PredAcyclic st.cameFrom

/-- The invariant at the head of the loop: `Core`, and every edge out of a visited node has
been relaxed. -/
structure Inv (st : AstarState n K) extends Core g edgeCost estimateCost isGoal start st : Prop where
  relaxed : ∀ u ∈ st.visited, ∀ e ∈ g.edges u, Relaxed edgeCost st u e

variable {g edgeCost estimateCost isGoal start} {st : AstarState n K} {node : Fin n} {s : K}

/-- Links lead from unvisited nodes only into visited ones. -/
theorem Core.reach_visited (hc : Core g edgeCost estimateCost isGoal start st) {a b : Fin n}
    (h : Relation.ReflTransGen (PredLink st.cameFrom) a b) : a = b ∨ b ∈ st.visited := by
  induction h with
  | refl => exact .inl rfl
  | tail _ hcb => exact .inr (hc.link _ _ hcb).1

/-- Pushing an entry for a node's current score. -/
theorem Core.push (hc : Core g edgeCost estimateCost isGoal start st) (hne : st.visited.Nonempty)
    {v : Fin n} {a : K} (hv : st.scores v = some a) :
    Core g edgeCost estimateCost isGoal start
      { st with visitNext := (a + estimateCost v, v) ::ₘ st.visitNext } where
  start_score := hc.start_score
  start_cameFrom := hc.start_cameFrom
  start_visited := hc.start_visited
  empty_pop h := absurd h hne.ne_empty
  visited_not_goal := hc.visited_not_goal
  visited_score := hc.visited_score
  heap_score x hx := by
    rcases Multiset.mem_cons.1 hx with rfl | hx
    · exact ⟨a, hv, le_rfl⟩
    · exact hc.heap_score x hx
  heap_latest v' hv' s' hs' := Multiset.mem_cons_of_mem (hc.heap_latest v' hv' s' hs')
  link := hc.link
  scored_link := hc.scored_link
  acyclic := hc.acyclic

/-- Lowering the score of the unvisited target of an edge out of the visited `node`, pointing
it at `node`, and pushing an entry for the new score. -/
theorem Core.update (hc : Core g edgeCost estimateCost isGoal start st)
    (hnode : node ∈ st.visited) (hs : st.scores node = some s) {e : EdgeRef n E}
    (he : e ∈ g.edges node) (ht : e.target ∉ st.visited)
    (hlt : ∀ old, st.scores e.target = some old → s + edgeCost e < old) :
    Core g edgeCost estimateCost isGoal start
      { st with
        scores := Function.update st.scores e.target (some (s + edgeCost e))
        cameFrom := Function.update st.cameFrom e.target (some node)
        visitNext := (s + edgeCost e + estimateCost e.target, e.target) ::ₘ st.visitNext } := by
  have hne : ∀ {v}, v ∈ st.visited → v ≠ e.target := fun hv h => ht (h ▸ hv)
  have hstart := hc.start_visited.resolve_left (Finset.ne_empty_of_mem hnode)
  refine ⟨by simpa [hne hstart] using hc.start_score, by simpa [hne hstart] using hc.start_cameFrom,
    hc.start_visited, fun h => absurd h (Finset.ne_empty_of_mem hnode), hc.visited_not_goal,
    fun v hv => by simpa only [Function.update_noteq (hne hv)] using hc.visited_score v hv,
    ?_, ?_, ?_, ?_, ?_⟩
  · rintro ⟨f', v⟩ hx
    rcases Multiset.mem_cons.1 hx with h | hx
    · cases h; exact ⟨_, by simp, le_rfl⟩
    · obtain ⟨a, ha, hle⟩ := hc.heap_score _ hx
      by_cases hvt : v = e.target
      · subst hvt
        exact ⟨s + edgeCost e, by simp, (add_le_add_right (hlt a ha).le _).trans hle⟩
      · exact ⟨a, by simpa [hvt] using ha, hle⟩
  · intro v hv a ha
    by_cases hvt : v = e.target
    · subst hvt
      obtain rfl : s + edgeCost e = a := by simpa using ha
      exact Multiset.mem_cons_self _ _
    · exact Multiset.mem_cons_of_mem (hc.heap_latest v hv a (by simpa [hvt] using ha))
  · intro v u hvu
    by_cases hvt : v = e.target
    · subst hvt
      obtain rfl : node = u := by simpa using hvu
      exact ⟨hnode, s, _, by simpa [hne hnode] using hs, by simp, e, he, rfl, rfl⟩
    · obtain ⟨hu, su, sv, hsu, hsv, e', he', hv', heq⟩ := hc.link v u (by simpa [hvt] using hvu)
      exact ⟨hu, su, sv, by simpa [hne hu] using hsu, by simpa [hvt] using hsv, e', he', hv', heq⟩
  · intro v a ha hvs
    by_cases hvt : v = e.target
    · subst hvt; simp
    · simpa [hvt] using hc.scored_link v a (by simpa [hvt] using ha) hvs
  · refine hc.acyclic.update fun h => ?_
    rcases hc.reach_visited h with h | h
    · exact ht (h ▸ hnode)
    · exact ht h

/-- **Edge step.**  Each edge of an expansion keeps `Core`. -/
theorem Core.relaxNext (hc : Core g edgeCost estimateCost isGoal start st)
    (hnode : node ∈ st.visited) (hs : st.scores node = some s) {e : EdgeRef n E}
    (he : e ∈ g.edges node) :
    Core g edgeCost estimateCost isGoal start (relaxNext edgeCost estimateCost node s st e) := by
  rcases relaxNext_cases edgeCost estimateCost node s st e with ⟨-, h⟩ | ⟨-, old, hold, -, h⟩ |
      ⟨ht, hlt, h⟩ <;> rw [h]
  · exact hc
  · exact hc.push ⟨node, hnode⟩ hold
  · exact hc.update hnode hs he ht hlt

/-- A relaxed edge stays relaxed: visited nodes stay visited and scores only go down. -/
theorem Relaxed.after_relaxNext {u : Fin n} {e' : EdgeRef n E} (hu : u ∈ st.visited)
    (h : Relaxed edgeCost st u e') (e : EdgeRef n E) :
    Relaxed edgeCost (relaxNext edgeCost estimateCost node s st e) u e' := by
  rcases h with h | ⟨su, t, hsu, ht, hle⟩
  · exact .inl (by simpa using h)
  · obtain ⟨t', ht', hle'⟩ := relaxNext_scores_le st e ht
    exact .inr ⟨su, t', (relaxNext_scores_visited st e hu).trans hsu, ht', hle'.trans hle⟩

theorem relaxed_relaxNext (hnode : node ∈ st.visited) (hs : st.scores node = some s)
    (e : EdgeRef n E) : Relaxed edgeCost (relaxNext edgeCost estimateCost node s st e) node e := by
  have hs' : (relaxNext edgeCost estimateCost node s st e).scores node = some s :=
    (relaxNext_scores_visited st e hnode).trans hs
  rcases relaxNext_cases edgeCost estimateCost node s st e with ⟨hv, h⟩ | ⟨-, old, hold, hnlt, h⟩ |
      ⟨-, -, h⟩ <;> rw [h] at hs' ⊢
  · exact .inl hv
  · exact .inr ⟨s, old, hs', hold, not_lt.1 hnlt⟩
  · exact .inr ⟨s, _, hs', by simp, le_rfl⟩

theorem Relaxed.after_foldl {u : Fin n} {e' : EdgeRef n E} (L : List (EdgeRef n E))
    (hu : u ∈ st.visited) (h : Relaxed edgeCost st u e') :
    Relaxed edgeCost (L.foldl (relaxNext edgeCost estimateCost node s) st) u e' :=
  (foldl_induction (P := fun st => u ∈ st.visited ∧ Relaxed edgeCost st u e')
    (fun _ e _ h => ⟨by simpa using h.1, h.2.after_relaxNext h.1 e⟩) ⟨hu, h⟩).2

/-- After an expansion, every edge of the expanded node has been relaxed. -/
theorem relaxed_foldl (L : List (EdgeRef n E)) (hnode : node ∈ st.visited)
    (hs : st.scores node = some s) :
    ∀ e ∈ L, Relaxed edgeCost (L.foldl (relaxNext edgeCost estimateCost node s) st) node e := by
  induction L generalizing st with
  | nil => intro e he; cases he
  | cons e L ih =>
    intro e' he'
    have hnode' : node ∈ (relaxNext edgeCost estimateCost node s st e).visited := by simpa using hnode
    have hs' : (relaxNext edgeCost estimateCost node s st e).scores node = some s :=
      (relaxNext_scores_visited st e hnode).trans hs
    rcases List.mem_cons.1 he' with rfl | he'
    · exact Relaxed.after_foldl L hnode' (relaxed_relaxNext hnode hs e')
    · exact ih hnode' hs' e' he'

/-- Consistency along a walk: the estimate drops by at most the walk's cost. -/
theorem estimate_le_walkCost
    (hcons : ∀ u, ∀ e ∈ g.edges u, estimateCost u ≤ edgeCost e + estimateCost e.target)
    {x T : Fin n} {q : List (EdgeRef n E)} (hq : g.IsWalk x q T) :
    estimateCost x ≤ walkCost edgeCost q + estimateCost T := by
  induction q generalizing x with
  | nil => obtain rfl := hq; simp
  | cons e q ih =>
    calc estimateCost x ≤ edgeCost e + estimateCost e.target := hcons x e hq.1
      _ ≤ edgeCost e + (walkCost edgeCost q + estimateCost T) := add_le_add_left (ih hq.2) _
      _ = walkCost edgeCost (e :: q) + estimateCost T := by simp [add_assoc]

/-- **Frontier.**  A walk from `start` to an unvisited node passes an unvisited node whose
score is at most the cost of the walk up to it. -/
theorem Inv.frontier_walk (hi : Inv g edgeCost estimateCost isGoal start st) {T : Fin n}
    (hT : T ∉ st.visited) {q : List (EdgeRef n E)} (hq : g.IsWalk start q T) :
    ∃ x q₁ q₂ sx, q = q₁ ++ q₂ ∧ g.IsWalk x q₂ T ∧ x ∉ st.visited ∧ st.scores x = some sx ∧
      sx ≤ walkCost edgeCost q₁ := by
  induction q using List.reverseRecOn generalizing T with
  | nil =>
    obtain rfl := hq
    exact ⟨start, [], [], 0, rfl, rfl, hT, hi.start_score, by simp⟩
  | append_singleton q e ih =>
    obtain ⟨hqs, he, rfl⟩ := isWalk_concat.1 hq
    by_cases hy : e.source ∈ st.visited
    · obtain ⟨sy, hsy, hle⟩ := hi.visited_score _ hy
      rcases hi.relaxed _ hy e he with h | ⟨su, t, hsu, ht, htle⟩
      · exact absurd h hT
      · obtain rfl : sy = su := Option.some.inj (hsy.symm.trans hsu)
        exact ⟨e.target, q ++ [e], [], t, by simp, rfl, hT, ht,
          htle.trans ((add_le_add_right (hle q hqs) (edgeCost e)).trans_eq (by simp))⟩
    · obtain ⟨x, q₁, q₂, sx, rfl, h₂, hx, hsx, hle⟩ := ih hy hqs
      exact ⟨x, q₁, q₂ ++ [e], sx, by simp, isWalk_concat.2 ⟨h₂, he, rfl⟩, hx, hsx, hle⟩

/-- **The popped entry is cheapest.**  With a consistent estimate, the node `pop()` returns
has a score which, with its estimate, is at most the cost of any walk from `start` to an
unvisited node plus that node's estimate. -/
theorem Inv.pop_le
    (hcons : ∀ u, ∀ e ∈ g.edges u, estimateCost u ≤ edgeCost e + estimateCost e.target)
    (hi : Inv g edgeCost estimateCost isGoal start st) {f : K} {v : Fin n} (hpop : IsPop st f v)
    {T : Fin n} (hT : T ∉ st.visited) {q : List (EdgeRef n E)} (hq : g.IsWalk start q T) :
    ∃ sv, st.scores v = some sv ∧ sv + estimateCost v ≤ walkCost edgeCost q + estimateCost T := by
  obtain ⟨sv, hsv, hfv⟩ := hi.heap_score _ hpop.1
  obtain ⟨x, q₁, q₂, sx, rfl, h₂, hx, hsx, hle⟩ := hi.frontier_walk hT hq
  refine ⟨sv, hsv, ?_⟩
  calc sv + estimateCost v ≤ f := hfv
    _ ≤ sx + estimateCost x := hpop.2 _ (hi.heap_latest x hx sx hsx)
    _ ≤ walkCost edgeCost q₁ + (walkCost edgeCost q₂ + estimateCost T) :=
        add_le_add hle (estimate_le_walkCost hcons h₂)
    _ = walkCost edgeCost (q₁ ++ q₂) + estimateCost T := by simp [add_assoc]

theorem inv_init : Inv g edgeCost estimateCost isGoal start (init estimateCost start) where
  start_score := by simp [init]
  start_cameFrom := rfl
  start_visited := .inl rfl
  empty_pop _ x hx := by simp only [init, Multiset.mem_singleton] at hx; simp [hx]
  visited_not_goal v hv := absurd hv (Finset.not_mem_empty v)
  visited_score v hv := absurd hv (Finset.not_mem_empty v)
  heap_score x hx := by
    simp only [init, Multiset.mem_singleton] at hx
    subst hx
    exact ⟨0, by simp [init], by simp⟩
  heap_latest v _ a ha := by
    by_cases hvs : v = start
    · subst hvs
      obtain rfl : (0 : K) = a := by simpa [init] using ha
      simp [init]
    · simp [init, hvs] at ha
  link _ _ h := by cases h
  scored_link v a ha hvs := by simp [init, hvs] at ha
  acyclic _ h := by
    obtain ⟨_, h, -⟩ := Relation.TransGen.head'_iff.1 h
    cases h
  relaxed u hu := absurd hu (Finset.not_mem_empty u)

/-- **Skip step.**  Dropping an entry of a visited node keeps the invariant. -/
theorem Inv.skip (hi : Inv g edgeCost estimateCost isGoal start st) {f : K}
    (hv : node ∈ st.visited) :
    Inv g edgeCost estimateCost isGoal start
      { st with visitNext := st.visitNext.erase (f, node) } where
  start_score := hi.start_score
  start_cameFrom := hi.start_cameFrom
  start_visited := hi.start_visited
  empty_pop h := absurd h (Finset.ne_empty_of_mem hv)
  visited_not_goal := hi.visited_not_goal
  visited_score := hi.visited_score
  heap_score x hx := hi.heap_score x (Multiset.mem_of_mem_erase hx)
  heap_latest v hv' a ha := (Multiset.mem_erase_of_ne fun h =>
    hv' (by rw [(Prod.mk.inj h).2]; exact hv)).2 (hi.heap_latest v hv' a ha)
  link := hi.link
  scored_link := hi.scored_link
  acyclic := hi.acyclic
  relaxed := hi.relaxed

/-- **Expansion step.**  Expanding the popped node keeps the invariant.  The node is settled
at its score because the popped entry is cheapest (`Inv.pop_le`), and its edges are relaxed
by the expansion. -/
theorem Inv.expand
    (hcons : ∀ u, ∀ e ∈ g.edges u, estimateCost u ≤ edgeCost e + estimateCost e.target)
    (hcancel : ∀ v a b, a + estimateCost v ≤ b + estimateCost v → a ≤ b)
    (hi : Inv g edgeCost estimateCost isGoal start st) {f : K} (hpop : IsPop st f node)
    (hg : isGoal node = false) (hv : node ∉ st.visited) (hs : st.scores node = some s) :
    Inv g edgeCost estimateCost isGoal start
      (expand g edgeCost estimateCost node s
        { st with visitNext := st.visitNext.erase (f, node) }) := by
  have hsettled : ∀ q, g.IsWalk start q node → s ≤ walkCost edgeCost q := fun q hq => by
    obtain ⟨sv, hsv, hle⟩ := hi.pop_le hcons hpop hv hq
    obtain rfl : s = sv := Option.some.inj (hs.symm.trans hsv)
    exact hcancel node _ _ hle
  let st₂ : AstarState n K :=
    ⟨insert node st.visited, st.visitNext.erase (f, node), st.scores, st.cameFrom⟩
  have hc₂ : Core g edgeCost estimateCost isGoal start st₂ := by
    refine ⟨hi.start_score, hi.start_cameFrom, .inr ?_, fun h => absurd h (Finset.insert_ne_empty _ _),
      fun v hv' => ?_, fun v hv' => ?_, fun x hx => hi.heap_score x (Multiset.mem_of_mem_erase hx),
      fun v hv' a ha => ?_, fun v u h => ?_, hi.scored_link, hi.acyclic⟩
    · rcases hi.start_visited with h | h
      · have hns : node = start := hi.empty_pop h _ hpop.1
        exact hns ▸ Finset.mem_insert_self node st.visited
      · exact Finset.mem_insert_of_mem h
    · rcases Finset.mem_insert.1 hv' with rfl | hv'
      exacts [hg, hi.visited_not_goal v hv']
    · rcases Finset.mem_insert.1 hv' with rfl | hv'
      exacts [⟨s, hs, hsettled⟩, hi.visited_score v hv']
    · have hvn : v ≠ node := fun h => hv' (h ▸ Finset.mem_insert_self _ _)
      exact (Multiset.mem_erase_of_ne fun h => hvn (congrArg Prod.snd h)).2
        (hi.heap_latest v (fun h => hv' (Finset.mem_insert_of_mem h)) a ha)
    · obtain ⟨hu, rest⟩ := hi.link v u h
      exact ⟨Finset.mem_insert_of_mem hu, rest⟩
  have hnode₂ : node ∈ st₂.visited := Finset.mem_insert_self _ _
  refine ⟨(foldl_induction
    (P := fun st' => Core g edgeCost estimateCost isGoal start st' ∧ node ∈ st'.visited ∧
      st'.scores node = some s)
    (fun st' e he h => ⟨h.1.relaxNext h.2.1 h.2.2 he, by simpa using h.2.1,
      (relaxNext_scores_visited st' e h.2.1).trans h.2.2⟩) ⟨hc₂, hnode₂, hs⟩).1, ?_⟩
  intro u hu e he
  rw [expand_visited] at hu
  rcases Finset.mem_insert.1 hu with rfl | hu
  · exact relaxed_foldl _ hnode₂ hs e he
  · refine Relaxed.after_foldl _ (Finset.mem_insert_of_mem hu) ?_
    rcases hi.relaxed u hu e he with h | h
    · exact .inl (Finset.mem_insert_of_mem h)
    · exact .inr h

/-- `n` rounds of `reconstruct_path_to`'s loop are enough: on a chain of links that visits no
node twice, the loop pushes exactly the rest of the chain. -/
theorem followCameFrom_eq {pred : Fin n → Option (Fin n)} :
    ∀ {v : Fin n} {rest : List (Fin n)} {k : ℕ}, (v :: rest).Chain' (PredLink pred) →
      pred ((v :: rest).getLast (List.cons_ne_nil v rest)) = none → rest.length ≤ k →
      followCameFrom pred k v = rest
  | _, [], 0, _, _, _ => rfl
  | v, [], _ + 1, _, hlast, _ => by simp [followCameFrom, show pred v = none from hlast]
  | _, _ :: _, 0, _, _, hk => absurd hk (by simp)
  | v, u :: rest, k + 1, hch, hlast, hk => by
    obtain ⟨hvu, hch⟩ := List.chain'_cons.1 hch
    simp only [followCameFrom, show pred v = some u from hvu]
    exact congrArg (u :: ·) (followCameFrom_eq hch (by rwa [List.getLast_cons_cons] at hlast)
      (by simpa using hk))

/-- **Path reconstruction.**  From a node with a score, `reconstruct_path_to` returns the
nodes of a walk from `start` that costs exactly the score. -/
theorem Core.reconstruct (hc : Core g edgeCost estimateCost isGoal start st) {t : Fin n} {a : K}
    (ha : st.scores t = some a) :
    ∃ q, g.IsWalk start q t ∧ walkNodes start q = reconstructPathTo st.cameFrom t ∧
      walkCost edgeCost q = a := by
  obtain ⟨rest, hnd, hch, hlast⟩ := hc.acyclic.exists_chain t
  have hsc : ∀ x, Relation.ReflTransGen (PredLink st.cameFrom) t x → ∃ a, st.scores x = some a := by
    intro x hx
    induction hx with
    | refl => exact ⟨a, ha⟩
    | tail _ hyz => obtain ⟨-, su, -, hsu, -⟩ := hc.link _ _ hyz; exact ⟨su, hsu⟩
  have hend : (t :: rest).getLast (List.cons_ne_nil t rest) = start := by
    by_contra h
    obtain ⟨b, hb⟩ := hsc _ (reflTransGen_of_mem_chain hch (List.getLast_mem _))
    exact hc.scored_link _ b hb h hlast
  have htight : (t :: rest).Chain' fun w u => ∃ e ∈ g.edges u, e.target = w ∧
      (st.scores u).getD 0 + edgeCost e = (st.scores w).getD 0 :=
    hch.imp fun w u hwu => by
      obtain ⟨-, su, sw, hsu, hsw, e, he, hew, heq⟩ := hc.link w u hwu
      exact ⟨e, he, hew, by simp [hsu, hsw, heq]⟩
  obtain ⟨q, hq, hnodes, hcost⟩ := walk_of_chain (by simp [hc.start_score]) t rest htight hend
  have hlen : rest.length ≤ n := by
    have := hnd.length_le_card
    simp only [List.length_cons, Fintype.card_fin] at this
    omega
  refine ⟨q, hq, ?_, by simpa [ha] using hcost⟩
  rw [hnodes, reconstructPathTo, followCameFrom_eq hch hlast hlen]

/-- **Runs.**  With a consistent estimate that is zero on goals, a run from a state satisfying
the invariant that returns `None` has found no goal reachable from `start`, and one that
returns `Some(path)` returns the nodes of a walk to a goal that costs no more than any walk
from `start` to any goal. -/
theorem loop_spec
    (hcons : ∀ u, ∀ e ∈ g.edges u, estimateCost u ≤ edgeCost e + estimateCost e.target)
    (hcancel : ∀ v a b, a + estimateCost v ≤ b + estimateCost v → a ≤ b)
    (hgoal : ∀ t, isGoal t = true → estimateCost t = 0)
    (hi : Inv g edgeCost estimateCost isGoal start st) {r : Option (List (Fin n))}
    (h : Loop g edgeCost estimateCost isGoal st r) :
    (r = none → ∀ t, isGoal t = true → ∀ q, ¬ g.IsWalk start q t) ∧
    ∀ path, r = some path → g.IsCheapestGoalPath edgeCost start isGoal path := by
  induction h with
  | @exhausted st₀ h0 =>
    refine ⟨fun _ t ht q hq => ?_, fun _ h => by cases h⟩
    have hT : t ∉ st₀.visited := fun h => by simp [hi.visited_not_goal t h] at ht
    obtain ⟨x, -, -, sx, -, -, hx, hsx, -⟩ := hi.frontier_walk hT hq
    simpa [h0] using hi.heap_latest x hx sx hsx
  | @goal st₀ f v hpop hg =>
    refine ⟨(fun h => by cases h), fun path hpath => ?_⟩
    cases hpath
    obtain ⟨sv, hsv, -⟩ := hi.heap_score _ hpop.1
    obtain ⟨q, hq, hnodes, hcost⟩ := hi.reconstruct hsv
    refine ⟨_, q, hg, hq, hnodes, fun t' q' ht' hq' => ?_⟩
    have hT : t' ∉ st₀.visited := fun h => by simp [hi.visited_not_goal t' h] at ht'
    obtain ⟨sv', hsv', hle⟩ := hi.pop_le hcons hpop hT hq'
    obtain rfl : sv = sv' := Option.some.inj (hsv.symm.trans hsv')
    simpa [hgoal _ hg, hgoal _ ht', hcost] using hle
  | skip _ _ hv _ ih => exact ih (hi.skip hv)
  | expand hpop hg hv hs _ ih => exact ih (hi.expand hcons hcancel hpop hg hv hs)

end Invariant

end Astar

/-- `astar(graph, start, is_goal, edge_cost, estimate_cost)` can return `r`: some run of the
loop, for some choice among entries of least estimate at each `pop()`, returns `r`. -/
def Astar [LinearOrder K] [Add K] [Zero K] (g : Network n E) (start : Fin n)
    (isGoal : Fin n → Bool) (edgeCost : EdgeRef n E → K) (estimateCost : Fin n → K)
    (r : Option (List (Fin n))) : Prop :=
  Astar.Loop g edgeCost estimateCost isGoal (Astar.init estimateCost start) r

/-- **Termination.**  `astar` returns, whatever the costs and the estimate: some run of the
loop ends, and `scores.get(&node).unwrap()` never panics on the way. -/
theorem astar_returns [LinearOrder K] [Add K] [Zero K] (g : Network n E) (start : Fin n)
    (isGoal : Fin n → Bool) (edgeCost : EdgeRef n E → K) (estimateCost : Fin n → K) :
    ∃ r, Astar g start isGoal edgeCost estimateCost r :=
  Astar.exists_loop g edgeCost estimateCost isGoal _ (Astar.heapScored_init estimateCost start)

/-- **Consistent estimates.**  If the estimate drops by at most an edge's cost along every edge
(`h(u) ≤ edge_cost(e) + h(v)`) and is zero on goals, every path `astar` can return lists the
nodes of a cheapest walk from `start` to a goal.  Costs need not be non-negative; they only
have to cancel, as integers and naturals do. -/
theorem astar_consistent_optimal [LinearOrderedCancelAddCommMonoid K] (g : Network n E)
    (start : Fin n) (isGoal : Fin n → Bool) (edgeCost : EdgeRef n E → K)
    (estimateCost : Fin n → K)
    (hcons : ∀ u, ∀ e ∈ g.edges u, estimateCost u ≤ edgeCost e + estimateCost e.target)
    (hgoal : ∀ t, isGoal t = true → estimateCost t = 0) (path : List (Fin n))
    (h : Astar g start isGoal edgeCost estimateCost (some path)) :
    g.IsCheapestGoalPath edgeCost start isGoal path :=
  (Astar.loop_spec hcons (fun _ _ _ => le_of_add_le_add_right) hgoal Astar.inv_init h).2 path rfl

/-- The graph of the `astar` documentation, `a .. f` being `0 .. 5`; `edges(a)` yields the
edges added last first, as a `Graph` does. -/
def astarDocGraph : Network 6 ℤ where
  nodeIdentifiers := List.finRange 6
  edges := ![[⟨1, 0, 3, 4⟩, ⟨0, 0, 1, 2⟩], [⟨3, 1, 5, 7⟩, ⟨2, 1, 2, 1⟩], [⟨4, 2, 4, 5⟩],
    [⟨6, 3, 4, 1⟩], [⟨5, 4, 5, 1⟩], []]
  nodup_nodeIdentifiers := List.nodup_finRange 6
  mem_nodeIdentifiers := List.mem_finRange
  source_edges := by decide

/-- The documented call: with the estimate `|_| 0` every run returns `Some(vec![a, d, e, f])`,
and that is a cheapest walk to `f`. -/
theorem astar_docGraph :
    (∀ u, ∀ e ∈ astarDocGraph.edges u, (0 : ℤ) ≤ e.weight + 0) ∧
    (∀ r, Astar astarDocGraph 0 (· == 5) EdgeRef.weight (fun _ => 0) r ↔ r = some [0, 3, 4, 5]) ∧
    astarDocGraph.IsCheapestGoalPath EdgeRef.weight 0 (· == 5) [0, 3, 4, 5] := by
  have hrun : ∀ r, Astar astarDocGraph 0 (· == 5) EdgeRef.weight (fun _ => 0) r ↔
      r = some [0, 3, 4, 5] := by
    intro r
    refine (Astar.loop_iff_expand (f := 0) (v := 0) (s := 0) ?_ rfl ?_ ?_).trans <|
      (Astar.loop_iff_expand (f := 2) (v := 1) (s := 2) ?_ rfl ?_ ?_).trans <|
      (Astar.loop_iff_expand (f := 3) (v := 2) (s := 3) ?_ rfl ?_ ?_).trans <|
      (Astar.loop_iff_expand (f := 4) (v := 3) (s := 4) ?_ rfl ?_ ?_).trans <|
      (Astar.loop_iff_expand (f := 5) (v := 4) (s := 5) ?_ rfl ?_ ?_).trans <|
      Astar.loop_iff_goal (f := 6) (v := 5) ?_ rfl ?_
    all_goals decide
  exact ⟨by decide, hrun, astar_consistent_optimal _ _ _ _ _ (by decide) (fun _ _ => rfl) _
    ((hrun _).2 rfl)⟩

/-- Four nodes: `0 → 1` costing `2`, `0 → 2` costing `5`, `1 → 2` costing `2` and `2 → 3`
costing `2`. -/
def detourNetwork : Network 4 ℕ where
  nodeIdentifiers := List.finRange 4
  edges := ![[⟨0, 0, 1, 2⟩, ⟨1, 0, 2, 5⟩], [⟨2, 1, 2, 2⟩], [⟨3, 2, 3, 2⟩], []]
  nodup_nodeIdentifiers := List.nodup_finRange 4
  mem_nodeIdentifiers := List.mem_finRange
  source_edges := by decide

/-- `4` at node `1`, whose only walk to `3` costs `4`, and `0` elsewhere: admissible, but it
drops by `4` along `1 → 2`, which costs `2`. -/
def detourEstimate : Fin 4 → ℕ := ![0, 4, 0, 0]

/-- Node `2` is expanded through `0 → 2` before `1` is, so the cheaper route `0 → 1 → 2` is
found only once `2` is visited, and every run returns `0, 2, 3` (cost `7`) although
`0 → 1 → 2 → 3` costs `6`. -/
theorem astar_admissible_suboptimal :
    (∀ v q, detourNetwork.IsWalk v q 3 → detourEstimate v ≤ walkCost EdgeRef.weight q) ∧
    (∀ r, Astar detourNetwork 0 (· == 3) EdgeRef.weight detourEstimate r ↔ r = some [0, 2, 3]) ∧
    (∀ q, detourNetwork.IsWalk 0 q 3 → walkNodes 0 q = [0, 2, 3] →
      walkCost EdgeRef.weight q = 7) ∧
    ∃ q, detourNetwork.IsWalk 0 q 3 ∧ walkCost EdgeRef.weight q = 6 := by
  refine ⟨fun v q hq => ?_, fun r => ?_, fun q hq hn => ?_,
    [⟨0, 0, 1, 2⟩, ⟨2, 1, 2, 2⟩, ⟨3, 2, 3, 2⟩], by decide, rfl⟩
  · by_cases hv : v = 1
    · subst hv
      rcases q with _ | ⟨e, _ | ⟨e', q⟩⟩
      · exact absurd hq (by decide)
      · obtain ⟨he, ht⟩ := hq
        simp [detourNetwork] at he
        subst he
        exact absurd ht (by decide)
      · obtain ⟨he, he', -⟩ := hq
        simp [detourNetwork] at he
        subst he
        simp [detourNetwork] at he'
        subst he'
        simp [detourEstimate]
        omega
    · have h0 : ∀ v : Fin 4, v ≠ 1 → detourEstimate v = 0 := by decide
      exact (h0 v hv).symm ▸ Nat.zero_le _
  · refine (Astar.loop_iff_expand (f := 0) (v := 0) (s := 0) ?_ rfl ?_ ?_).trans <|
      (Astar.loop_iff_expand (f := 5) (v := 2) (s := 5) ?_ rfl ?_ ?_).trans <|
      (Astar.loop_iff_expand (f := 6) (v := 1) (s := 2) ?_ rfl ?_ ?_).trans <|
      Astar.loop_iff_goal (f := 7) (v := 3) ?_ rfl ?_
    all_goals decide
  · rcases q with _ | ⟨e, _ | ⟨e', _ | ⟨_, _⟩⟩⟩ <;> simp [walkNodes] at hn
    obtain ⟨he, he', -⟩ := hq
    simp [detourNetwork] at he
    rcases he with rfl | rfl
    · exact absurd hn.1 (by decide)
    · simp [detourNetwork] at he'
      subst he'
      rfl

end Petgraph
