import PetgraphAlgo.AstarPaths

/-!
# Every state of an `astar` run

`Astar.Loop` is the loop of `astar` as a big-step relation from a state to what the call
returns.  `Astar.Step` is one round of it that does not return (a skip or an expansion), and a
run is a sequence of steps followed by a return (`loop_iff_steps`), so the states reachable
from `Astar.init` by steps are exactly the states some run passes through at the head of its
loop.

On those states, whatever the costs:
* every heap entry has a score, so `scores.get(&node).unwrap()` never panics;
* `start` never gets a `came_from` entry, and a visited node's score and link never change;
* following `came_from` from a scored node climbs through visited nodes, without a repeat, to
  `start`, along edges whose costs, added to `K::default()` in turn as `astar` adds them
  (`scoreAlong`), give the node's score (`ScoreLinks`); so `reconstruct_path_to` stops.

The main result is `astar_run_invariants`.
-/

namespace Petgraph

open Network

variable {n : ℕ} {E K : Type}

/-- The cost `astar` adds up along a walk from `start`: `K::default()`, then
`+ edge_cost(edge)` for each edge in turn. -/
def scoreAlong [Add K] [Zero K] (edgeCost : EdgeRef n E → K) (q : List (EdgeRef n E)) : K :=
  q.foldl (fun a e => a + edgeCost e) 0

@[simp] theorem scoreAlong_nil [Add K] [Zero K] (edgeCost : EdgeRef n E → K) :
    scoreAlong edgeCost [] = 0 := rfl

theorem scoreAlong_concat [Add K] [Zero K] (edgeCost : EdgeRef n E → K) (q : List (EdgeRef n E))
    (e : EdgeRef n E) : scoreAlong edgeCost (q ++ [e]) = scoreAlong edgeCost q + edgeCost e := by
  simp [scoreAlong]

/-- **Walking a chain of links, adding as `astar` adds.**  When every link `w → u` of a chain
is an edge `u → w` whose cost, added to `pot u`, gives `pot w`, and the chain ends at `s` with
`pot s = 0`, the chain read backwards is a walk from `s` whose `scoreAlong` is `pot` of its
head.  No law of `+` is used. -/
theorem walk_of_scoreChain [Add K] [Zero K] {g : Network n E} {c : EdgeRef n E → K}
    {pot : Fin n → K} {s : Fin n} (hs : pot s = 0) : ∀ (v : Fin n) (rest : List (Fin n)),
    (v :: rest).Chain' (fun w u => ∃ e ∈ g.edges u, e.target = w ∧ pot u + c e = pot w) →
    (v :: rest).getLast (List.cons_ne_nil v rest) = s →
    ∃ q, g.IsWalk s q v ∧ walkNodes s q = (v :: rest).reverse ∧ scoreAlong c q = pot v
  | v, [], _, hlast => by
    obtain rfl : v = s := hlast
    exact ⟨[], rfl, rfl, hs.symm⟩
  | v, u :: rest, hch, hlast => by
    obtain ⟨⟨e, he, rfl, hpot⟩, htail⟩ := List.chain'_cons.1 hch
    obtain ⟨q, hq, hnodes, hc⟩ :=
      walk_of_scoreChain hs u rest htail (by rwa [List.getLast_cons_cons] at hlast)
    obtain rfl := g.source_edges u e he
    exact ⟨q ++ [e], isWalk_concat.2 ⟨hq, he, rfl⟩, by simp [walkNodes_append, hnodes],
      by rw [scoreAlong_concat, hc, hpot]⟩

namespace Astar

/-! ## Runs as sequences of steps -/

section Step

variable [LinearOrder K] [Add K] (g : Network n E) (edgeCost : EdgeRef n E → K)
  (estimateCost : Fin n → K) (isGoal : Fin n → Bool)

/-- One round of the loop that does not return: the popped entry is for a visited node and is
dropped, or its node is expanded with its score. -/
inductive Step : AstarState n K → AstarState n K → Prop
  | skip {st : AstarState n K} {f : K} {node : Fin n} : IsPop st f node → isGoal node = false →
      node ∈ st.visited → Step st { st with visitNext := st.visitNext.erase (f, node) }
  | expand {st : AstarState n K} {f : K} {node : Fin n} {s : K} : IsPop st f node →
      isGoal node = false → node ∉ st.visited → st.scores node = some s →
      Step st (expand g edgeCost estimateCost node s
        { st with visitNext := st.visitNext.erase (f, node) })

/-- The loop returns `r` at `st`: the heap is empty and `r` is `None`, or an entry of least
estimate is for a goal and `r` is the path to it. -/
def Returns (st : AstarState n K) (r : Option (List (Fin n))) : Prop :=
  (st.visitNext = 0 ∧ r = none) ∨
    ∃ f node, IsPop st f node ∧ isGoal node = true ∧ r = some (reconstructPathTo st.cameFrom node)

variable {g edgeCost estimateCost isGoal}

/-- **Runs are step sequences.**  A run of the loop from `st` returns `r` exactly when some
sequence of steps leads from `st` to a state where the loop returns `r`. -/
theorem loop_iff_steps {st : AstarState n K} {r : Option (List (Fin n))} :
    Loop g edgeCost estimateCost isGoal st r ↔
      ∃ st', Relation.ReflTransGen (Step g edgeCost estimateCost isGoal) st st' ∧
        Returns isGoal st' r := by
  constructor
  · intro h
    induction h with
    | exhausted h0 => exact ⟨_, .refl, .inl ⟨h0, rfl⟩⟩
    | goal hpop hg => exact ⟨_, .refl, .inr ⟨_, _, hpop, hg, rfl⟩⟩
    | skip hpop hg hv _ ih =>
      obtain ⟨st', hs, hr⟩ := ih
      exact ⟨st', .head (.skip hpop hg hv) hs, hr⟩
    | expand hpop hg hv hsc _ ih =>
      obtain ⟨st', hs, hr⟩ := ih
      exact ⟨st', .head (.expand hpop hg hv hsc) hs, hr⟩
  · rintro ⟨st', hs, hr⟩
    induction hs using Relation.ReflTransGen.head_induction_on with
    | refl =>
      rcases hr with ⟨h0, rfl⟩ | ⟨f, node, hpop, hg, rfl⟩
      exacts [.exhausted h0, .goal hpop hg]
    | head hstep _ ih =>
      cases hstep with
      | skip hpop hg hv => exact .skip hpop hg hv ih
      | expand hpop hg hv hsc => exact .expand hpop hg hv hsc ih

end Step

/-! ## The invariant of every reachable state -/

section Invariant

variable [LinearOrder K] [Add K] {g : Network n E} {edgeCost : EdgeRef n E → K}
  {estimateCost : Fin n → K} {isGoal : Fin n → Bool} {start node : Fin n} {s : K}
  {st st' : AstarState n K}

/-- **Visited nodes are frozen.**  A step keeps a visited node visited, with the score and
the link it had. -/
theorem Step.frozen (h : Step g edgeCost estimateCost isGoal st st') {v : Fin n}
    (hv : v ∈ st.visited) :
    v ∈ st'.visited ∧ st'.scores v = st.scores v ∧ st'.cameFrom v = st.cameFrom v := by
  cases h with
  | skip => exact ⟨hv, rfl, rfl⟩
  | expand =>
    exact foldl_induction
      (P := fun st'' => v ∈ st''.visited ∧ st''.scores v = st.scores v ∧
        st''.cameFrom v = st.cameFrom v)
      (fun st'' e _ h => ⟨by simpa using h.1, (relaxNext_scores_visited st'' e h.1).trans h.2.1,
        (relaxNext_cameFrom_visited st'' e h.1).trans h.2.2⟩)
      ⟨Finset.mem_insert_of_mem hv, rfl, rfl⟩

/-- A run of steps keeps a visited node visited, with its score and link. -/
theorem frozen_of_steps (h : Relation.ReflTransGen (Step g edgeCost estimateCost isGoal) st st')
    {v : Fin n} (hv : v ∈ st.visited) :
    v ∈ st'.visited ∧ st'.scores v = st.scores v ∧ st'.cameFrom v = st.cameFrom v := by
  induction h with
  | refl => exact ⟨hv, rfl, rfl⟩
  | tail _ hstep ih =>
    obtain ⟨hv', hs, hc⟩ := hstep.frozen ih.1
    exact ⟨hv', hs.trans ih.2.1, hc.trans ih.2.2⟩

variable [Zero K]

variable (g edgeCost start) in
/-- The scores hang on the links: `start` scores `K::default()`, and a link `v → u` is an edge
`u → v` whose cost, added to `u`'s score, gives `v`'s score. -/
structure ScoreLinks (st : AstarState n K) : Prop where
  start_score : st.scores start = some 0
  link_score : ∀ v u, st.cameFrom v = some u → ∃ su sv, st.scores u = some su ∧
    st.scores v = some sv ∧ ∃ e ∈ g.edges u, e.target = v ∧ su + edgeCost e = sv

/-- **Edge step.**  Relaxing an edge of an expanded node with its score keeps `ScoreLinks`. -/
theorem ScoreLinks.relax (hl : ScoreLinks g edgeCost start st)
    (hc : TrackerCore g isGoal start st) (hnode : node ∈ st.visited)
    (hs : st.scores node = some s) {e : EdgeRef n E} (he : e ∈ g.edges node) :
    ScoreLinks g edgeCost start (relaxNext edgeCost estimateCost node s st e) := by
  rcases relaxNext_cases edgeCost estimateCost node s st e with ⟨-, h⟩ | ⟨-, _, -, -, h⟩ | ⟨ht, -, h⟩ <;>
    rw [h]
  · exact hl
  · exact ⟨hl.start_score, hl.link_score⟩
  have hvt : ∀ {v}, v ∈ st.visited → v ≠ e.target := fun hv h => ht (h ▸ hv)
  have hstart := hvt (hc.start_visited.resolve_left (Finset.ne_empty_of_mem hnode))
  refine ⟨by simpa [hstart] using hl.start_score, fun v u hvu => ?_⟩
  by_cases hv : v = e.target
  · subst hv
    obtain rfl : node = u := by simpa using hvu
    exact ⟨s, s + edgeCost e, by simpa [hvt hnode] using hs, by simp, e, he, rfl, rfl⟩
  · have hvu : st.cameFrom v = some u := by simpa [hv] using hvu
    obtain ⟨su, sv, hsu, hsv, e', he', hev, hsum⟩ := hl.link_score v u hvu
    have hu := hvt (hc.link v u hvu).1
    exact ⟨su, sv, by simpa [hu] using hsu, by simpa [hv] using hsv, e', he', hev, hsum⟩

variable (g edgeCost isGoal start) in
/-- What holds inside the edge loop of the expansion of `node` with score `s`. -/
structure Expanding (node : Fin n) (s : K) (st : AstarState n K) : Prop where
  core : TrackerCore g isGoal start st
  links : ScoreLinks g edgeCost start st
  node_visited : node ∈ st.visited
  node_score : st.scores node = some s

/-- **Edge step.**  Each edge of the expanded node keeps `Expanding`. -/
theorem Expanding.relax (h : Expanding g edgeCost isGoal start node s st) {e : EdgeRef n E}
    (he : e ∈ g.edges node) :
    Expanding g edgeCost isGoal start node s (relaxNext edgeCost estimateCost node s st e) :=
  ⟨h.core.relax h.node_visited he, h.links.relax h.core h.node_visited h.node_score he,
    by simpa using h.node_visited, (relaxNext_scores_visited st e h.node_visited).trans h.node_score⟩

/-- Visiting the popped node starts the edge loop in `Expanding`. -/
theorem Expanding.visit (hl : ScoreLinks g edgeCost start st)
    (hi : TrackerInv g isGoal start st) {f : K} (hpop : IsPop st f node)
    (hg : isGoal node = false) (hs : st.scores node = some s) :
    Expanding g edgeCost isGoal start node s
      { st with visitNext := st.visitNext.erase (f, node), visited := insert node st.visited } :=
  ⟨hi.toTrackerCore.visit hpop hg hs, ⟨hl.start_score, hl.link_score⟩,
    Finset.mem_insert_self _ _, hs⟩

/-- **Expansion step.**  Expanding the popped node with its score keeps `ScoreLinks`. -/
theorem ScoreLinks.expand (hl : ScoreLinks g edgeCost start st)
    (hi : TrackerInv g isGoal start st) {f : K} (hpop : IsPop st f node)
    (hg : isGoal node = false) (hs : st.scores node = some s) :
    ScoreLinks g edgeCost start (expand g edgeCost estimateCost node s
      { st with visitNext := st.visitNext.erase (f, node) }) :=
  (foldl_induction (P := Expanding g edgeCost isGoal start node s) (fun _ _ he h => h.relax he)
    (Expanding.visit hl hi hpop hg hs)).links

variable (g edgeCost isGoal start) in
/-- What holds at the head of the loop in every run. -/
structure RunInv (st : AstarState n K) : Prop where
  tracker : TrackerInv g isGoal start st
  scores : ScoreLinks g edgeCost start st

omit [LinearOrder K] in
theorem RunInv.init : RunInv g edgeCost isGoal start (Astar.init estimateCost start) :=
  ⟨.init, ⟨by simp [Astar.init], fun v u h => by simp [Astar.init] at h⟩⟩

theorem RunInv.step (hi : RunInv g edgeCost isGoal start st)
    (h : Step g edgeCost estimateCost isGoal st st') : RunInv g edgeCost isGoal start st' := by
  cases h with
  | skip hpop hg hv => exact ⟨hi.tracker.skip hv, hi.scores.start_score, hi.scores.link_score⟩
  | expand hpop hg hv hs =>
    exact ⟨hi.tracker.expand hpop hg hs, hi.scores.expand hi.tracker hpop hg hs⟩

theorem RunInv.of_steps
    (h : Relation.ReflTransGen (Step g edgeCost estimateCost isGoal)
      (Astar.init estimateCost start) st) :
    RunInv g edgeCost isGoal start st := by
  induction h with
  | refl => exact .init
  | tail _ hstep ih => exact ih.step hstep

omit [LinearOrder K] in
/-- **The links from a scored node.**  Following `came_from` from a node with score `a`
passes only visited nodes after the first, repeats none, and stops at `start`; read backwards
it is a walk from `start` whose edge costs, added up as `astar` adds them, give `a`. -/
theorem ScoreLinks.chain (hl : ScoreLinks g edgeCost start st)
    (hc : TrackerCore g isGoal start st) {x : Fin n} {a : K} (ha : st.scores x = some a) :
    ∃ rest, (x :: rest).Nodup ∧ (x :: rest).Chain' (PredLink st.cameFrom) ∧
      (∀ y ∈ rest, y ∈ st.visited) ∧ (x :: rest).getLast (List.cons_ne_nil x rest) = start ∧
      ∃ q, g.IsWalk start q x ∧ walkNodes start q = (x :: rest).reverse ∧
        scoreAlong edgeCost q = a := by
  obtain ⟨rest, hnd, hch, hlast⟩ := hc.acyclic.exists_chain x
  have hsc : ∀ y, Relation.ReflTransGen (PredLink st.cameFrom) x y → ∃ b, st.scores y = some b := by
    intro y hy
    induction hy with
    | refl => exact ⟨a, ha⟩
    | tail _ hyz => obtain ⟨su, -, hsu, -⟩ := hl.link_score _ _ hyz; exact ⟨su, hsu⟩
  have hend : (x :: rest).getLast (List.cons_ne_nil x rest) = start := by
    by_contra h
    obtain ⟨b, hb⟩ := hsc _ (reflTransGen_of_mem_chain hch (List.getLast_mem _))
    exact hc.scored_link _ b hb h hlast
  have htight : (x :: rest).Chain' fun w u => ∃ e ∈ g.edges u, e.target = w ∧
      (st.scores u).getD 0 + edgeCost e = (st.scores w).getD 0 :=
    hch.imp fun w u hwu => by
      obtain ⟨su, sw, hsu, hsw, e, he, hew, heq⟩ := hl.link_score w u hwu
      exact ⟨e, he, hew, by simp [hsu, hsw, heq]⟩
  obtain ⟨q, hq, hnodes, hcost⟩ :=
    walk_of_scoreChain (by simp [hl.start_score]) x rest htight hend
  refine ⟨rest, hnd, hch, fun y hy => ?_, hend, q, hq, hnodes, by simpa [ha] using hcost⟩
  rcases hc.reach_visited (reflTransGen_of_mem_chain hch (List.mem_cons_of_mem x hy)) with h | h
  · exact absurd (h ▸ hy) (List.nodup_cons.1 hnd).1
  · exact h

end Invariant

end Astar

/-- **Every state of a run.**  In each state an `astar` run reaches at the head of its loop,
whatever the costs: every heap entry's node has a score, so the `unwrap` on
`scores.get(&node)` never fails; `start` has no `came_from` entry; a visited node keeps its
score and its link for the rest of the run; and the links from a scored node `x` pass only
visited nodes after `x`, repeat none, and reach `start` within fewer than `n` rounds of
`reconstruct_path_to`'s loop, which then stops; read backwards they are a walk from `start`
whose edge costs, added as `astar` adds them, make `x`'s score. -/
theorem astar_run_invariants [LinearOrder K] [Add K] [Zero K] (g : Network n E) (start : Fin n)
    (isGoal : Fin n → Bool) (edgeCost : EdgeRef n E → K) (estimateCost : Fin n → K)
    {st : AstarState n K}
    (hst : Relation.ReflTransGen (Astar.Step g edgeCost estimateCost isGoal)
      (Astar.init estimateCost start) st) :
    Astar.HeapScored st ∧ st.cameFrom start = none ∧
    (∀ st', Relation.ReflTransGen (Astar.Step g edgeCost estimateCost isGoal) st st' →
      ∀ v ∈ st.visited, v ∈ st'.visited ∧ st'.scores v = st.scores v ∧
        st'.cameFrom v = st.cameFrom v) ∧
    ∀ x a, st.scores x = some a → ∃ rest, (x :: rest).Nodup ∧
      (x :: rest).Chain' (PredLink st.cameFrom) ∧ (∀ y ∈ rest, y ∈ st.visited) ∧
      (x :: rest).getLast (List.cons_ne_nil x rest) = start ∧ rest.length < n ∧
      (∀ k, rest.length ≤ k → Astar.followCameFrom st.cameFrom k x = rest) ∧
      ∃ q, g.IsWalk start q x ∧ walkNodes start q = (x :: rest).reverse ∧
        scoreAlong edgeCost q = a := by
  have hi := Astar.RunInv.of_steps hst
  refine ⟨hi.tracker.heap_scored, hi.tracker.start_cameFrom,
    fun st' h v hv => Astar.frozen_of_steps h hv, fun x a ha => ?_⟩
  obtain ⟨rest, hnd, hch, hvis, hend, hq⟩ := hi.scores.chain hi.tracker.toTrackerCore ha
  have hlen : rest.length < n := by simpa using hnd.length_le_card
  have hstop : st.cameFrom ((x :: rest).getLast (List.cons_ne_nil x rest)) = none := by
    rw [hend]; exact hi.tracker.start_cameFrom
  exact ⟨rest, hnd, hch, hvis, hend, hlen, fun k hk => Astar.followCameFrom_eq hch hstop hk, hq⟩

/-- `detourNetwork` searched from `0` with the estimate `|_| 0`, after its first round: `0` is
expanded, `1` scored `2` and `2` scored `5`, both linked to `0`. -/
def detourFirstRound : AstarState 4 ℕ :=
  Astar.expand detourNetwork EdgeRef.weight (fun _ => 0) 0 0
    { Astar.init (fun _ => (0 : ℕ)) (0 : Fin 4) with
      visitNext := (Astar.init (fun _ => (0 : ℕ)) (0 : Fin 4)).visitNext.erase (0, 0) }

/-- After the second round: `1` is expanded too, and `2`'s score has dropped to `4`, with its
link moved to `1`. -/
def detourSecondRound : AstarState 4 ℕ :=
  Astar.expand detourNetwork EdgeRef.weight (fun _ => 0) 1 2
    { detourFirstRound with visitNext := detourFirstRound.visitNext.erase (2, 1) }

theorem detourFirstRound_reached :
    Relation.ReflTransGen (Astar.Step detourNetwork EdgeRef.weight (fun _ => 0) (· == 3))
      (Astar.init (fun _ => 0) 0) detourFirstRound :=
  .single (.expand (f := 0) (by unfold Astar.IsPop; decide) rfl (by decide) rfl)

theorem detourSecondRound_step :
    Astar.Step detourNetwork EdgeRef.weight (fun _ => 0) (· == 3) detourFirstRound
      detourSecondRound :=
  .expand (f := 2) (by unfold Astar.IsPop; decide) rfl (by decide) (by decide)

theorem astar_run_invariants_detour :
    Relation.ReflTransGen (Astar.Step detourNetwork EdgeRef.weight (fun _ => 0) (· == 3))
      (Astar.init (fun _ => 0) 0) detourSecondRound ∧
    detourSecondRound.scores 2 = some 4 ∧ detourSecondRound.cameFrom 2 = some 1 ∧
    (Astar.HeapScored detourSecondRound ∧ detourSecondRound.cameFrom 0 = none ∧
      (∀ st', Relation.ReflTransGen (Astar.Step detourNetwork EdgeRef.weight (fun _ => 0) (· == 3))
          detourSecondRound st' →
        ∀ v ∈ detourSecondRound.visited, v ∈ st'.visited ∧
          st'.scores v = detourSecondRound.scores v ∧
          st'.cameFrom v = detourSecondRound.cameFrom v) ∧
      ∀ x a, detourSecondRound.scores x = some a → ∃ rest, (x :: rest).Nodup ∧
        (x :: rest).Chain' (PredLink detourSecondRound.cameFrom) ∧
        (∀ y ∈ rest, y ∈ detourSecondRound.visited) ∧
        (x :: rest).getLast (List.cons_ne_nil x rest) = 0 ∧ rest.length < 4 ∧
        (∀ k, rest.length ≤ k → Astar.followCameFrom detourSecondRound.cameFrom k x = rest) ∧
        ∃ q, detourNetwork.IsWalk 0 q x ∧ walkNodes 0 q = (x :: rest).reverse ∧
          scoreAlong EdgeRef.weight q = a) :=
  have hst := detourFirstRound_reached.tail detourSecondRound_step
  ⟨hst, by decide, by decide,
    astar_run_invariants detourNetwork 0 (· == 3) EdgeRef.weight (fun _ => 0) hst⟩

end Petgraph
