import PetgraphAlgo.AstarRuns
import Mathlib.Algebra.BigOperators.Group.Finset

/-!
# What the rounds of `astar`'s loop do over a whole run

**How many.**  Each round of `while let Some(MinScored(_, node)) = visit_next.pop()` takes one
entry off the heap.  A round that expands `node` pushes at most one entry per edge of `graph.edges(node)`,
and it does so once in the whole run, since `node` is then visited.  So the heap entries plus
the out-degrees of the nodes not yet visited (`pending`) drop by at least one in every round
(`Step.pending_lt`), and they start at `1 + |E|`.

Whatever the costs, the estimate and the heap's choice among entries of equal estimate, the
loop runs at most `1 + |E|` rounds before the one that returns, and the heap never holds
more than `1 + |E|` entries (`astar_rounds_le`).

**Scores only fall.**  `scores.insert(next, next_score)` runs only when the new score is
lower than the old one, so along any run a node keeps a score once it has one, and that score
never rises (`astar_scores_antitone`).

**Visited nodes are settled.**  With a consistent estimate, the invariant `Inv` of
`Astar.lean` holds at every state a run reaches (`Inv.of_steps`), so every node in
`visited` carries the least cost of a walk to it from `start`, and `reconstruct_path_to`
already returns such a walk (`astar_visited_settled`), goal or not.

**Popped estimates never fall.**  With a consistent estimate, an expansion pushes entries no
lower than the one it popped, which was no higher than any other entry; so a bound below
every entry of the heap stays below every later entry (`Below.step`), and the estimates that
`visit_next.pop()` returns never decrease along a run (`astar_pop_monotone`).
-/

namespace Petgraph

open Network

variable {n : ℕ} {E K : Type}

namespace Astar

section Bound

variable [LinearOrder K] [Add K] {g : Network n E} {edgeCost : EdgeRef n E → K}
  {estimateCost : Fin n → K} {isGoal : Fin n → Bool} {node : Fin n} {s : K}
  {st st' : AstarState n K}

variable (g) in
/-- What is left for the loop: the entries on the heap, and one possible entry per edge out of
each node not yet visited. -/
def pending (st : AstarState n K) : ℕ :=
  Multiset.card st.visitNext + ∑ v ∈ st.visitedᶜ, (g.edges v).length

variable (edgeCost estimateCost node s) in
/-- One edge pushes at most one entry. -/
theorem card_relaxNext_le (st : AstarState n K) (e : EdgeRef n E) :
    Multiset.card (relaxNext edgeCost estimateCost node s st e).visitNext ≤
      Multiset.card st.visitNext + 1 := by
  rcases relaxNext_cases edgeCost estimateCost node s st e with
    ⟨-, h⟩ | ⟨-, _, -, -, h⟩ | ⟨-, -, h⟩ <;> rw [h] <;> simp

variable (edgeCost estimateCost node s) in
/-- The edge loop pushes at most one entry per edge. -/
theorem card_foldl_relaxNext_le : ∀ (L : List (EdgeRef n E)) (st : AstarState n K),
    Multiset.card (L.foldl (relaxNext edgeCost estimateCost node s) st).visitNext ≤
      Multiset.card st.visitNext + L.length
  | [], _ => le_rfl
  | e :: L, st => by
    have := card_foldl_relaxNext_le L (relaxNext edgeCost estimateCost node s st e)
    have := card_relaxNext_le edgeCost estimateCost node s st e
    simp only [List.foldl_cons, List.length_cons]
    omega

/-- **Step.**  Every round that does not return lowers what is left. -/
theorem Step.pending_lt (h : Step g edgeCost estimateCost isGoal st st') :
    pending g st' < pending g st := by
  cases h with
  | @skip f node hpop _ _ =>
    have hpos := Multiset.card_pos_iff_exists_mem.2 ⟨_, hpop.1⟩
    dsimp only [pending]
    rw [Multiset.card_erase_of_mem hpop.1, Nat.pred_eq_sub_one]
    omega
  | @expand f node s hpop _ hv _ =>
    have hcard := card_foldl_relaxNext_le edgeCost estimateCost node s (g.edges node)
      { st with visitNext := st.visitNext.erase (f, node), visited := insert node st.visited }
    have hpos := Multiset.card_pos_iff_exists_mem.2 ⟨_, hpop.1⟩
    have hsum : (g.edges node).length + ∑ v ∈ st.visitedᶜ.erase node, (g.edges v).length =
        ∑ v ∈ st.visitedᶜ, (g.edges v).length :=
      Finset.add_sum_erase _ (fun v => (g.edges v).length) (Finset.mem_compl.2 hv)
    rw [Multiset.card_erase_of_mem hpop.1, Nat.pred_eq_sub_one] at hcard
    dsimp only [pending]
    rw [expand_visited, Finset.compl_insert]
    dsimp only [Astar.expand]
    omega

/-- **Run.**  A sequence of rounds that do not return is no longer than what is left at its
start. -/
theorem length_le_pending : ∀ {st : AstarState n K} {sts : List (AstarState n K)},
    List.Chain (Step g edgeCost estimateCost isGoal) st sts → sts.length ≤ pending g st
  | _, [], _ => Nat.zero_le _
  | _, _ :: _, .cons h hs => Nat.succ_le_of_lt ((length_le_pending hs).trans_lt h.pending_lt)

theorem pending_le_of_steps
    (h : Relation.ReflTransGen (Step g edgeCost estimateCost isGoal) st st') :
    pending g st' ≤ pending g st := by
  induction h with
  | refl => exact le_rfl
  | tail _ hstep ih => exact hstep.pending_lt.le.trans ih

omit [LinearOrder K] [Add K] in
variable (g estimateCost) in
theorem pending_init [Zero K] (start : Fin n) :
    pending g (init estimateCost start) = 1 + ∑ v, (g.edges v).length := by
  simp [pending, init]

/-- **Step.**  A round keeps every score, or lowers it. -/
theorem Step.scores_le (h : Step g edgeCost estimateCost isGoal st st') {v : Fin n} {a : K}
    (hv : st.scores v = some a) : ∃ a', st'.scores v = some a' ∧ a' ≤ a := by
  cases h with
  | skip => exact ⟨a, hv, le_rfl⟩
  | expand =>
    exact foldl_induction (P := fun st'' => ∃ a', st''.scores v = some a' ∧ a' ≤ a)
      (fun st'' e _ ⟨_, ha', hle⟩ =>
        (relaxNext_scores_le st'' e ha').imp fun _ h => ⟨h.1, h.2.trans hle⟩)
      ⟨a, hv, le_rfl⟩

/-- **Run.**  A run keeps every score, or lowers it. -/
theorem scores_le_of_steps
    (h : Relation.ReflTransGen (Step g edgeCost estimateCost isGoal) st st') {v : Fin n} {a : K}
    (hv : st.scores v = some a) : ∃ a', st'.scores v = some a' ∧ a' ≤ a := by
  induction h with
  | refl => exact ⟨a, hv, le_rfl⟩
  | tail _ hstep ih =>
    obtain ⟨a', ha', hle⟩ := ih
    exact (hstep.scores_le ha').imp fun _ h => ⟨h.1, h.2.trans hle⟩

end Bound

section PopOrder

variable [LinearOrderedAddCommMonoid K] {g : Network n E} {edgeCost : EdgeRef n E → K}
  {estimateCost : Fin n → K} {isGoal : Fin n → Bool} {start node : Fin n} {s b : K}
  {st st' : AstarState n K}

variable (estimateCost) in
/-- `b` is below every entry of the heap, and below the entry that the current score of any
unvisited node would be pushed with. -/
def Below (b : K) (st : AstarState n K) : Prop :=
  (∀ x ∈ st.visitNext, b ≤ x.1) ∧
    ∀ t ∉ st.visited, ∀ a, st.scores t = some a → b ≤ a + estimateCost t

/-- Relaxing an edge out of `node`, along which the estimate is consistent, keeps a bound that
is below `node`'s own entry. -/
theorem Below.relaxNext {e : EdgeRef n E}
    (hcons : estimateCost node ≤ edgeCost e + estimateCost e.target)
    (hb : b ≤ s + estimateCost node) (h : Below estimateCost b st) :
    Below estimateCost b (relaxNext edgeCost estimateCost node s st e) := by
  have hnew : b ≤ s + edgeCost e + estimateCost e.target :=
    calc b ≤ s + estimateCost node := hb
      _ ≤ s + (edgeCost e + estimateCost e.target) := add_le_add_left hcons s
      _ = s + edgeCost e + estimateCost e.target := (add_assoc _ _ _).symm
  rcases relaxNext_cases edgeCost estimateCost node s st e with
    ⟨-, hst⟩ | ⟨ht, old, hold, -, hst⟩ | ⟨-, -, hst⟩ <;> rw [hst]
  · exact h
  · exact ⟨Multiset.forall_mem_cons.2 ⟨h.2 _ ht _ hold, h.1⟩, h.2⟩
  · refine ⟨Multiset.forall_mem_cons.2 ⟨hnew, h.1⟩, fun t ht a ha => ?_⟩
    by_cases hte : t = e.target
    · subst hte
      simp only [Function.update_same, Option.some.injEq] at ha
      rw [← ha]
      exact hnew
    · exact h.2 t ht a (by simpa [hte] using ha)

/-- **Step.**  With a consistent estimate, a round keeps a bound below every entry of the
heap: a skip only removes an entry, and an expansion pushes none below the popped entry,
which the invariant puts at `node`'s score plus its estimate. -/
theorem Below.step
    (hcons : ∀ u, ∀ e ∈ g.edges u, estimateCost u ≤ edgeCost e + estimateCost e.target)
    (hi : Inv g edgeCost estimateCost isGoal start st) (hb : ∀ x ∈ st.visitNext, b ≤ x.1)
    (h : Step g edgeCost estimateCost isGoal st st') : ∀ x ∈ st'.visitNext, b ≤ x.1 := by
  cases h with
  | skip => exact fun x hx => hb x (Multiset.mem_of_mem_erase hx)
  | @expand f node s _ _ hv hs =>
    have hbelow : Below estimateCost b
        { st with visitNext := st.visitNext.erase (f, node), visited := insert node st.visited } :=
      ⟨fun x hx => hb x (Multiset.mem_of_mem_erase hx), fun t ht a ha =>
        hb _ (hi.heap_latest t (fun h => ht (Finset.mem_insert_of_mem h)) a ha)⟩
    exact (foldl_induction (P := Below estimateCost b)
      (fun _ e he h => h.relaxNext (hcons node e he) (hb _ (hi.heap_latest node hv s hs)))
      hbelow).1

end PopOrder

section Settled

variable [LinearOrderedCancelAddCommMonoid K] {g : Network n E} {edgeCost : EdgeRef n E → K}
  {estimateCost : Fin n → K} {isGoal : Fin n → Bool} {start : Fin n} {st : AstarState n K}

/-- **Run.**  With a consistent estimate, every state a run reaches satisfies `Inv`. -/
theorem Inv.of_steps
    (hcons : ∀ u, ∀ e ∈ g.edges u, estimateCost u ≤ edgeCost e + estimateCost e.target)
    (h : Relation.ReflTransGen (Step g edgeCost estimateCost isGoal)
      (init estimateCost start) st) :
    Inv g edgeCost estimateCost isGoal start st := by
  induction h with
  | refl => exact inv_init
  | tail _ hstep ih =>
    cases hstep with
    | skip _ _ hv => exact ih.skip hv
    | expand hpop hg hv hs =>
      exact ih.expand hcons (fun _ _ _ => le_of_add_le_add_right) hpop hg hv hs

/-- **Run.**  With a consistent estimate, a bound below every entry of the heap in a state a
run reaches stays below every entry for the rest of the run. -/
theorem below_of_steps
    (hcons : ∀ u, ∀ e ∈ g.edges u, estimateCost u ≤ edgeCost e + estimateCost e.target)
    (hst : Relation.ReflTransGen (Step g edgeCost estimateCost isGoal)
      (init estimateCost start) st)
    (h : Relation.ReflTransGen (Step g edgeCost estimateCost isGoal) st st') {b : K}
    (hb : ∀ x ∈ st.visitNext, b ≤ x.1) : ∀ x ∈ st'.visitNext, b ≤ x.1 := by
  induction h with
  | refl => exact hb
  | tail hmid hstep ih => exact Below.step hcons (Inv.of_steps hcons (hst.trans hmid)) ih hstep

end Settled

end Astar

/-- **Rounds of `astar`'s loop.**  Whatever the costs, the estimate and the order in which
the heap yields entries of equal estimate, the loop runs at most `1 + |E|` rounds before the
one that returns, `|E|` being the number of edges, and the heap never holds more than
`1 + |E|` entries. -/
theorem astar_rounds_le [LinearOrder K] [Add K] [Zero K] (g : Network n E) (start : Fin n)
    (isGoal : Fin n → Bool) (edgeCost : EdgeRef n E → K) (estimateCost : Fin n → K) :
    (∀ sts : List (AstarState n K),
      List.Chain (Astar.Step g edgeCost estimateCost isGoal) (Astar.init estimateCost start) sts →
        sts.length ≤ 1 + ∑ v, (g.edges v).length) ∧
    ∀ st, Relation.ReflTransGen (Astar.Step g edgeCost estimateCost isGoal)
      (Astar.init estimateCost start) st →
        Multiset.card st.visitNext ≤ 1 + ∑ v, (g.edges v).length := by
  rw [← Astar.pending_init g estimateCost start]
  exact ⟨fun _ h => Astar.length_le_pending h,
    fun _ h => (Nat.le_add_right _ _).trans (Astar.pending_le_of_steps h)⟩

/-- **Scores only fall.**  Along any run of `astar`'s loop, whatever the costs and the
estimate, a node that has a score keeps one, no higher. -/
theorem astar_scores_antitone [LinearOrder K] [Add K] (g : Network n E) (isGoal : Fin n → Bool)
    (edgeCost : EdgeRef n E → K) (estimateCost : Fin n → K) (st st' : AstarState n K)
    (h : Relation.ReflTransGen (Astar.Step g edgeCost estimateCost isGoal) st st') (v : Fin n)
    (a : K) (hv : st.scores v = some a) :
    ∃ a', st'.scores v = some a' ∧ a' ≤ a :=
  Astar.scores_le_of_steps h hv

theorem astar_scores_antitone_detour :
    Relation.ReflTransGen (Astar.Step detourNetwork EdgeRef.weight (fun _ => 0) (· == 3))
      detourFirstRound detourSecondRound ∧
    detourFirstRound.scores 2 = some 5 ∧ detourSecondRound.scores 2 = some 4 ∧
    ∃ a', detourSecondRound.scores 2 = some a' ∧ a' ≤ 5 :=
  have hfirst : detourFirstRound.scores 2 = some 5 := by decide
  ⟨.single detourSecondRound_step, hfirst, by decide, astar_scores_antitone detourNetwork (· == 3)
    EdgeRef.weight (fun _ => 0) _ _ (.single detourSecondRound_step) 2 5 hfirst⟩

/-- **Visited nodes are settled.**  With a consistent estimate, in every state a run of
`astar` reaches, each visited node has a score that no walk from `start` to it undercuts, and
`reconstruct_path_to` returns the nodes of a walk from `start` to it costing exactly that
score. -/
theorem astar_visited_settled [LinearOrderedCancelAddCommMonoid K] (g : Network n E)
    (start : Fin n) (isGoal : Fin n → Bool) (edgeCost : EdgeRef n E → K)
    (estimateCost : Fin n → K)
    (hcons : ∀ u, ∀ e ∈ g.edges u, estimateCost u ≤ edgeCost e + estimateCost e.target)
    (st : AstarState n K)
    (hst : Relation.ReflTransGen (Astar.Step g edgeCost estimateCost isGoal)
      (Astar.init estimateCost start) st) :
    ∀ v ∈ st.visited, ∃ s, st.scores v = some s ∧
      (∀ q, g.IsWalk start q v → s ≤ walkCost edgeCost q) ∧
      ∃ q, g.IsWalk start q v ∧ walkNodes start q = Astar.reconstructPathTo st.cameFrom v ∧
        walkCost edgeCost q = s := by
  intro v hv
  have hi := Astar.Inv.of_steps hcons hst
  obtain ⟨s, hs, hle⟩ := hi.visited_score v hv
  exact ⟨s, hs, hle, hi.reconstruct hs⟩

theorem astar_visited_settled_detour :
    (∀ u, ∀ e ∈ detourNetwork.edges u, (0 : ℕ) ≤ e.weight + 0) ∧
    Relation.ReflTransGen (Astar.Step detourNetwork EdgeRef.weight (fun _ => 0) (· == 3))
      (Astar.init (fun _ => 0) 0) detourSecondRound ∧
    1 ∈ detourSecondRound.visited ∧ ∃ s, detourSecondRound.scores 1 = some s ∧
      (∀ q, detourNetwork.IsWalk 0 q 1 → s ≤ walkCost EdgeRef.weight q) ∧
      ∃ q, detourNetwork.IsWalk 0 q 1 ∧
        walkNodes 0 q = Astar.reconstructPathTo detourSecondRound.cameFrom 1 ∧
        walkCost EdgeRef.weight q = s :=
  have hst := detourFirstRound_reached.tail detourSecondRound_step
  have h1 : (1 : Fin 4) ∈ detourSecondRound.visited := by decide
  ⟨by decide, hst, h1, astar_visited_settled detourNetwork 0 (· == 3) EdgeRef.weight (fun _ => 0)
    (by decide) _ hst 1 h1⟩

/-- **Popped estimates never fall.**  With a consistent estimate, if `visit_next.pop()` can
return an entry estimated `f` in a state of a run of `astar`, and an entry estimated `f'` in a
later state of that run, then `f ≤ f'`. -/
theorem astar_pop_monotone [LinearOrderedCancelAddCommMonoid K] (g : Network n E)
    (start : Fin n) (isGoal : Fin n → Bool) (edgeCost : EdgeRef n E → K)
    (estimateCost : Fin n → K)
    (hcons : ∀ u, ∀ e ∈ g.edges u, estimateCost u ≤ edgeCost e + estimateCost e.target)
    (st st' : AstarState n K)
    (hst : Relation.ReflTransGen (Astar.Step g edgeCost estimateCost isGoal)
      (Astar.init estimateCost start) st)
    (h : Relation.ReflTransGen (Astar.Step g edgeCost estimateCost isGoal) st st')
    (f f' : K) (v v' : Fin n) (hpop : Astar.IsPop st f v) (hpop' : Astar.IsPop st' f' v') :
    f ≤ f' :=
  Astar.below_of_steps hcons hst h hpop.2 _ hpop'.1

theorem astar_pop_monotone_detour :
    (∀ u, ∀ e ∈ detourNetwork.edges u, (0 : ℕ) ≤ e.weight + 0) ∧
    Relation.ReflTransGen (Astar.Step detourNetwork EdgeRef.weight (fun _ => 0) (· == 3))
      (Astar.init (fun _ => 0) 0) detourFirstRound ∧
    Astar.IsPop (Astar.init (fun _ => (0 : ℕ)) (0 : Fin 4)) 0 0 ∧
    Astar.IsPop detourFirstRound 2 1 ∧ (0 : ℕ) ≤ 2 := by
  have hpop : Astar.IsPop (Astar.init (fun _ => (0 : ℕ)) (0 : Fin 4)) 0 0 := by
    unfold Astar.IsPop; decide
  have hpop' : Astar.IsPop detourFirstRound 2 1 := by unfold Astar.IsPop; decide
  exact ⟨by decide, detourFirstRound_reached, hpop, hpop', astar_pop_monotone detourNetwork 0
    (· == 3) EdgeRef.weight (fun _ => 0) (by decide) _ _ .refl detourFirstRound_reached 0 2 0 1
    hpop hpop'⟩

end Petgraph
