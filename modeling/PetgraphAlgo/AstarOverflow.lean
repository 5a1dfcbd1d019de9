import PetgraphAlgo.AstarRuns

/-!
# `astar` with `w`-bit unsigned scores

`astar` adds with `K`'s `+`, which for an unsigned integer type of `w` bits wraps modulo
`2 ^ w`.  `Fin (2 ^ w)` is that type: `+` wraps, `<` compares the values and `K::default()`
is `0`.  Each round of the edge loop makes two additions, `node_score + edge_cost(edge)` and
`next_score + estimate_cost(next)`; `relaxSums` lists their operands as the body meets them,
and `expandSums` those of a whole expansion.

When every simple path from `start`, the one-node path included, costs less than `2 ^ w`
together with the estimate at its end (`PathBounded`, costs added as natural numbers), no
addition of a run wraps, and every score the run computes is the cost of a simple path from
`start` (`astar_no_wrap`).  The reason is the invariant of `AstarRuns`: a node's links climb
through visited nodes to `start`, so the score of the node being expanded is the cost of a
simple path that avoids every node not yet visited, and an edge into such a node extends it
to a simple path again.

`pathBounded_of_le` gives a bound that is easy to check: with every edge cost at most `c` and
every estimate at most `d`, `(n - 1) * c + d < 2 ^ w` is enough.
-/

namespace Petgraph

open Network

variable {n : ℕ} {E K : Type}

namespace Astar

/-! ## The additions of an expansion -/

section Sums

variable [LinearOrder K] [Add K] (g : Network n E) (edgeCost : EdgeRef n E → K)
  (estimateCost : Fin n → K)

/-- The operands of the two additions of the edge loop's body for one edge:
`node_score + edge_cost(edge)`, then `next_score + estimate_cost(next)`, where `next_score` is
the new score or the old one it did not beat.  An edge into a visited node makes none. -/
def relaxSums (nodeScore : K) (st : AstarState n K) (e : EdgeRef n E) :
    List (K × K) :=
  if e.target ∈ st.visited then []
  else
    let nextScore :=
      match st.scores e.target with
      | some oldScore =>
        if nodeScore + edgeCost e < oldScore then nodeScore + edgeCost e else oldScore
      | none => nodeScore + edgeCost e
    [(nodeScore, edgeCost e), (nextScore, estimateCost e.target)]

/-- The operands of the additions of the edge loop over `edges` from `st`, in order. -/
def foldSums (node : Fin n) (nodeScore : K) :
    List (EdgeRef n E) → AstarState n K → List (K × K)
  | [], _ => []
  | e :: edges, st => relaxSums edgeCost estimateCost nodeScore st e ++
      foldSums node nodeScore edges (relaxNext edgeCost estimateCost node nodeScore st e)

/-- The operands of the additions made by expanding `node` with score `node_score`. -/
def expandSums (node : Fin n) (nodeScore : K) (st : AstarState n K) : List (K × K) :=
  foldSums edgeCost estimateCost node nodeScore (g.edges node)
    { st with visited := insert node st.visited }

end Sums

/-! ## No addition wraps -/

section Wrap

/-- Every simple path from `start`, the one-node path included, costs less than `2 ^ w`
together with the estimate at its end, adding as natural numbers. -/
def PathBounded {w : ℕ} (g : Network n E) (start : Fin n) (edgeCost : EdgeRef n E → Fin (2 ^ w))
    (estimateCost : Fin n → Fin (2 ^ w)) : Prop :=
  ∀ q t, g.IsWalk start q t → (walkNodes start q).Nodup →
    walkCost (fun e => (edgeCost e).val) q + (estimateCost t).val < 2 ^ w

variable {w : ℕ} {g : Network n E} {edgeCost : EdgeRef n E → Fin (2 ^ w)}
  {estimateCost : Fin n → Fin (2 ^ w)} {isGoal : Fin n → Bool} {start node : Fin n}
  {s : Fin (2 ^ w)} {st : AstarState n (Fin (2 ^ w))}

/-- Under the bound, `astar`'s sum along a simple path from `start` does not wrap. -/
theorem PathBounded.val_scoreAlong (hb : PathBounded g start edgeCost estimateCost) :
    ∀ {q t}, g.IsWalk start q t → (walkNodes start q).Nodup →
      (scoreAlong edgeCost q).val = walkCost (fun e => (edgeCost e).val) q := by
  intro q
  induction q using List.reverseRecOn with
  | nil => intro _ _ _; simp
  | append_singleton q e ih =>
    intro t hq hnd
    have hlt := hb _ _ hq hnd
    rw [walkNodes_append] at hnd
    simp only [walkCost_append, walkCost_cons, walkCost_nil, add_zero] at hlt ⊢
    rw [scoreAlong_concat, Fin.val_add, ih (isWalk_concat.1 hq).1 hnd.of_append_left,
      Nat.mod_eq_of_lt (by omega)]

/-- A scored node's score is the cost of a simple path from `start` that passes, besides the
node itself, only visited nodes. -/
theorem PathBounded.scored (hb : PathBounded g start edgeCost estimateCost)
    (hc : TrackerCore g isGoal start st) (hl : ScoreLinks g edgeCost start st) {x : Fin n}
    {a : Fin (2 ^ w)} (ha : st.scores x = some a) :
    ∃ q, g.IsWalk start q x ∧ (walkNodes start q).Nodup ∧
      (∀ y ∈ walkNodes start q, y = x ∨ y ∈ st.visited) ∧
      a.val = walkCost (fun e => (edgeCost e).val) q := by
  obtain ⟨rest, hnd, -, hvis, -, q, hq, hnodes, hcost⟩ := hl.chain hc ha
  have hnd' : (walkNodes start q).Nodup := by rw [hnodes]; exact List.nodup_reverse.2 hnd
  refine ⟨q, hq, hnd', fun y hy => ?_, by rw [← hcost, hb.val_scoreAlong hq hnd']⟩
  rw [hnodes, List.mem_reverse, List.mem_cons] at hy
  exact hy.imp_right (hvis y)

/-- The path of the node being expanded, extended by an edge into a node not visited, is a
simple path; its cost is `node_score + edge_cost(edge)` added as natural numbers. -/
theorem PathBounded.extend (hb : PathBounded g start edgeCost estimateCost)
    (h : Expanding g edgeCost isGoal start node s st) {e : EdgeRef n E}
    (he : e ∈ g.edges node) (ht : e.target ∉ st.visited) :
    ∃ q, g.IsWalk start q e.target ∧ (walkNodes start q).Nodup ∧
      walkCost (fun e => (edgeCost e).val) q = s.val + (edgeCost e).val := by
  obtain ⟨q, hq, hnd, hvis, hs⟩ := hb.scored h.core h.links h.node_score
  have hsrc := g.source_edges node e he
  refine ⟨q ++ [e], isWalk_concat.2 ⟨by rwa [hsrc], by rwa [hsrc], rfl⟩, ?_, by simp [hs]⟩
  rw [walkNodes_append, List.nodup_append]
  refine ⟨hnd, List.nodup_singleton _, List.disjoint_singleton.2 fun hmem => ?_⟩
  rcases hvis _ hmem with hx | hx
  · exact ht (hx ▸ h.node_visited)
  · exact ht hx

/-- An addition whose operands sum below `2 ^ w` is the natural-number sum. -/
theorem val_add_of_lt {a b : Fin (2 ^ w)} (h : a.val + b.val < 2 ^ w) :
    (a + b).val = a.val + b.val := by
  rw [Fin.val_add, Nat.mod_eq_of_lt h]

/-- **Edge step.**  Neither addition of the body for an edge of the expanded node wraps. -/
theorem PathBounded.relaxSums_lt (hb : PathBounded g start edgeCost estimateCost)
    (h : Expanding g edgeCost isGoal start node s st) {e : EdgeRef n E}
    (he : e ∈ g.edges node) :
    ∀ p ∈ relaxSums edgeCost estimateCost s st e, p.1.val + p.2.val < 2 ^ w := by
  unfold relaxSums
  split_ifs with ht
  · simp
  obtain ⟨q, hq, hnd, hsum⟩ := hb.extend h he ht
  have hnew := hb _ _ hq hnd
  rw [hsum] at hnew
  have hval := val_add_of_lt (a := s) (b := edgeCost e) (by omega)
  simp only [List.mem_cons, List.mem_singleton, List.not_mem_nil, or_false, forall_eq_or_imp,
    forall_eq]
  refine ⟨by omega, ?_⟩
  cases hold : st.scores e.target with
  | none => simp only [hval]; omega
  | some old =>
    obtain ⟨q', hq', hnd', -, hcost⟩ := hb.scored h.core h.links hold
    have := hb _ _ hq' hnd'
    dsimp only
    split_ifs
    · rw [hval]; omega
    · omega

/-- **Expansion.**  No addition of the edge loop wraps. -/
theorem PathBounded.foldSums_lt (hb : PathBounded g start edgeCost estimateCost) :
    ∀ {edges : List (EdgeRef n E)} {st : AstarState n (Fin (2 ^ w))},
      (∀ e ∈ edges, e ∈ g.edges node) → Expanding g edgeCost isGoal start node s st →
      ∀ p ∈ foldSums edgeCost estimateCost node s edges st, p.1.val + p.2.val < 2 ^ w
  | [], _, _, _ => by simp [foldSums]
  | e :: edges, st, hedges, h => by
    have he := hedges e (List.mem_cons_self _ _)
    simp only [foldSums, List.mem_append]
    rintro p (hp | hp)
    · exact hb.relaxSums_lt h he p hp
    · exact hb.foldSums_lt (fun e' he' => hedges e' (List.mem_cons_of_mem _ he'))
        (h.relax he) p hp

/-- A walk along edges of cost at most `m` costs at most `m` per edge. -/
theorem walkCost_le_length_mul {c : EdgeRef n E → ℕ} {m : ℕ}
    (hc : ∀ u, ∀ e ∈ g.edges u, c e ≤ m) {a b : Fin n} {p : List (EdgeRef n E)}
    (hp : g.IsWalk a p b) : walkCost c p ≤ p.length * m := by
  induction p generalizing a with
  | nil => simp
  | cons e p ih =>
    have := hc a e hp.1
    have := ih hp.2
    simp only [walkCost_cons, List.length_cons, Nat.succ_mul]
    omega

/-- A bound that is easy to check: a simple path has fewer than `n` edges, so edge costs of at
most `c` and estimates of at most `d` with `(n - 1) * c + d < 2 ^ w` bound every simple path. -/
theorem pathBounded_of_le {c d : ℕ} (hc : ∀ u, ∀ e ∈ g.edges u, (edgeCost e).val ≤ c)
    (hd : ∀ v, (estimateCost v).val ≤ d) (hlt : (n - 1) * c + d < 2 ^ w) :
    PathBounded g start edgeCost estimateCost := by
  intro q t hq hnd
  have hlen : q.length ≤ n - 1 := by have := length_lt_of_nodup hnd; omega
  calc walkCost (fun e => (edgeCost e).val) q + (estimateCost t).val
      ≤ q.length * c + d := Nat.add_le_add (walkCost_le_length_mul hc hq) (hd t)
    _ ≤ (n - 1) * c + d := Nat.add_le_add_right (Nat.mul_le_mul_right c hlen) d
    _ < 2 ^ w := hlt

end Wrap

end Astar

/-- **No wrap-around with `w`-bit scores.**  When every simple path from `start`, the
one-node path included, costs less than `2 ^ w` together with the estimate at its end, then
in every state of a run every score is the cost of a simple path from `start`, and expanding a
popped node makes no addition that wraps: neither `node_score + edge_cost(edge)`, which is the
cost of a simple path to the edge's target, nor `next_score + estimate_cost(next)`. -/
theorem astar_no_wrap {w : ℕ} (g : Network n E) (start : Fin n) (isGoal : Fin n → Bool)
    (edgeCost : EdgeRef n E → Fin (2 ^ w)) (estimateCost : Fin n → Fin (2 ^ w))
    (hbound : ∀ q t, g.IsWalk start q t → (walkNodes start q).Nodup →
      walkCost (fun e => (edgeCost e).val) q + (estimateCost t).val < 2 ^ w)
    {st : AstarState n (Fin (2 ^ w))}
    (hst : Relation.ReflTransGen (Astar.Step g edgeCost estimateCost isGoal)
      (Astar.init estimateCost start) st) :
    (∀ x a, st.scores x = some a → ∃ q, g.IsWalk start q x ∧ (walkNodes start q).Nodup ∧
      a.val = walkCost (fun e => (edgeCost e).val) q) ∧
    ∀ f node s, Astar.IsPop st f node → isGoal node = false → node ∉ st.visited →
      st.scores node = some s →
      (∀ p ∈ Astar.expandSums g edgeCost estimateCost node s
          { st with visitNext := st.visitNext.erase (f, node) }, p.1.val + p.2.val < 2 ^ w) ∧
      ∀ e ∈ g.edges node, e.target ∉ insert node st.visited →
        ∃ q, g.IsWalk start q e.target ∧ (walkNodes start q).Nodup ∧
          (s + edgeCost e).val = walkCost (fun e => (edgeCost e).val) q := by
  have hi := Astar.RunInv.of_steps hst
  refine ⟨fun x a ha => ?_, fun f node s hpop hg _ hs => ?_⟩
  · obtain ⟨q, hq, hnd, -, hcost⟩ := Astar.PathBounded.scored hbound hi.tracker.toTrackerCore
      hi.scores ha
    exact ⟨q, hq, hnd, hcost⟩
  have hexp := Astar.Expanding.visit hi.scores hi.tracker hpop hg hs
  refine ⟨Astar.PathBounded.foldSums_lt hbound (fun _ he => he) (by convert hexp using 3),
    fun e he ht => ?_⟩
  obtain ⟨q, hq, hnd, hsum⟩ := Astar.PathBounded.extend hbound hexp he ht
  have := hbound _ _ hq hnd
  exact ⟨q, hq, hnd, by rw [Astar.val_add_of_lt (by omega), hsum]⟩

/-- The detour network's edge costs as 8-bit scores. -/
def detourCost8 (e : EdgeRef 4 ℕ) : Fin (2 ^ 8) := e.weight

/-- The detour network's estimates as 8-bit scores. -/
def detourEstimate8 (v : Fin 4) : Fin (2 ^ 8) := detourEstimate v

/-- `detourNetwork` searched from `0` with 8-bit scores, after its first round: the heap's
only entry popped, `0` is expanded, `1` scored `2` and `2` scored `5`. -/
def detourFirstRound8 : AstarState 4 (Fin (2 ^ 8)) :=
  Astar.expand detourNetwork detourCost8 detourEstimate8 0 0
    { Astar.init detourEstimate8 (0 : Fin 4) with visitNext := 0 }

theorem detourFirstRound8_reached :
    Relation.ReflTransGen (Astar.Step detourNetwork detourCost8 detourEstimate8 (· == 3))
      (Astar.init detourEstimate8 0) detourFirstRound8 :=
  .single (.expand (f := 0) ⟨Multiset.mem_singleton_self _, fun x _ => Nat.zero_le x.1.val⟩ rfl
    (Finset.not_mem_empty 0) rfl)

theorem astar_no_wrap_detour :
    (∀ q t, detourNetwork.IsWalk 0 q t → (walkNodes 0 q).Nodup →
      walkCost (fun e => (detourCost8 e).val) q + (detourEstimate8 t).val < 2 ^ 8) ∧
    Relation.ReflTransGen (Astar.Step detourNetwork detourCost8 detourEstimate8 (· == 3))
      (Astar.init detourEstimate8 0) detourFirstRound8 ∧
    detourFirstRound8.scores 1 = some 2 ∧ detourFirstRound8.scores 2 = some 5 ∧
    ((∀ x a, detourFirstRound8.scores x = some a →
        ∃ q, detourNetwork.IsWalk 0 q x ∧ (walkNodes 0 q).Nodup ∧
          a.val = walkCost (fun e => (detourCost8 e).val) q) ∧
      ∀ f node s, Astar.IsPop detourFirstRound8 f node → (node == 3) = false →
        node ∉ detourFirstRound8.visited → detourFirstRound8.scores node = some s →
        (∀ p ∈ Astar.expandSums detourNetwork detourCost8 detourEstimate8 node s
            { detourFirstRound8 with
              visitNext := detourFirstRound8.visitNext.erase (f, node) },
            p.1.val + p.2.val < 2 ^ 8) ∧
        ∀ e ∈ detourNetwork.edges node, e.target ∉ insert node detourFirstRound8.visited →
          ∃ q, detourNetwork.IsWalk 0 q e.target ∧ (walkNodes 0 q).Nodup ∧
            (s + detourCost8 e).val = walkCost (fun e => (detourCost8 e).val) q) :=
  have hb : Astar.PathBounded detourNetwork 0 detourCost8 detourEstimate8 :=
    Astar.pathBounded_of_le (c := 5) (d := 4) (by decide) (by decide) (by decide)
  ⟨hb, detourFirstRound8_reached, by decide, by decide,
    astar_no_wrap detourNetwork 0 (· == 3) detourCost8 detourEstimate8 hb detourFirstRound8_reached⟩

end Petgraph
