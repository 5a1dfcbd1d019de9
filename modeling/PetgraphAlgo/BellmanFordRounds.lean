import PetgraphAlgo.BellmanFord

/-!
# The rounds of `bellman_ford`

**What `k` rounds achieve.**  After `k` rounds of the loop, the distances are squeezed between
walk costs: each finite `distance[v]` is what some walk from the source to `v` costs, and no
walk from the source with at most `k` edges costs less than the distance of its end
(`bellmanFord_round_bounds`).

**The early `break`.**  `bellman_ford` leaves its loop of `node_count - 1` sweeps as soon as a
sweep sets no `did_update`.  That is only a saving: a sweep that relaxed nothing left `distance`
and `predecessor` as they were, so every later sweep would find nothing to relax either.
`relaxRoundsNoBreak` runs every sweep; the code's rounds end in the same state
(`relaxRounds_eq_noBreak`), and `bellman_ford` returns what the loop without the `break` would
(`bellmanFord_eq_noBreak`).
-/

namespace Petgraph

open Network

variable {n : ℕ} {α : Type} [LinearOrderedAddCommGroup α]

namespace BellmanFord

variable (g : Network n (WithTop α))

/-- `k` rounds of the loop without its early `break`: clear `did_update` and sweep, every
round. -/
def relaxRoundsNoBreak : ℕ → Relax n α → Relax n α
  | 0, st => st
  | k + 1, st => relaxRoundsNoBreak k (sweep g { st with didUpdate := false })

variable {g}

/-- A sweep that sets no `did_update` changes nothing. -/
theorem sweep_eq_self {st : Relax n α}
    (h : (sweep g { st with didUpdate := false }).didUpdate = false) :
    sweep g { st with didUpdate := false } = { st with didUpdate := false } := by
  rw [sweep_eq] at h ⊢
  exact (foldl_quiet _ _ h).1

/-- From a state that a sweep leaves as it is, the rounds without `break` change nothing. -/
theorem relaxRoundsNoBreak_of_quiet {st : Relax n α} (hd : st.didUpdate = false)
    (hs : sweep g st = st) : ∀ k, relaxRoundsNoBreak g k st = st
  | 0 => rfl
  | k + 1 => by
    obtain ⟨distance, predecessor, didUpdate⟩ := st
    subst hd
    rw [relaxRoundsNoBreak, hs]
    exact relaxRoundsNoBreak_of_quiet rfl hs k

/-- **The `break` is a saving only.**  The code's rounds, which stop after a sweep that
updated nothing, end in the same state as the same number of rounds without the `break`. -/
theorem relaxRounds_eq_noBreak : ∀ (k : ℕ) (st : Relax n α),
    relaxRounds g k st = relaxRoundsNoBreak g k st
  | 0, _ => rfl
  | k + 1, st => by
    simp only [relaxRounds, relaxRoundsNoBreak]
    split
    · exact relaxRounds_eq_noBreak k _
    · next hq =>
      have hself := sweep_eq_self (Bool.eq_false_iff.2 hq)
      rw [hself]
      exact (relaxRoundsNoBreak_of_quiet rfl hself k).symm

end BellmanFord

/-- **What `k` rounds achieve.**  After `k` rounds of `bellman_ford`'s loop from `source`,
whether or not it broke off early, every finite `distance[v]` is the cost of a walk from
`source` to `v`, and every walk from `source` with at most `k` edges costs at least the
distance of its end. -/
theorem bellmanFord_round_bounds (g : Network n (WithTop α)) (source : Fin n) (k : ℕ) :
    (∀ v, (BellmanFord.relaxRounds g k (BellmanFord.initial source)).distance v ≠ ⊤ →
      ∃ p, g.IsWalk source p v ∧ walkCost EdgeRef.weight p =
        (BellmanFord.relaxRounds g k (BellmanFord.initial source)).distance v) ∧
    ∀ v p, g.IsWalk source p v → p.length ≤ k →
      (BellmanFord.relaxRounds g k (BellmanFord.initial source)).distance v ≤
        walkCost EdgeRef.weight p := by
  have hi := BellmanFord.relaxRounds_induction g (fun _ h => ⟨h.1, h.2, h.3, h.4⟩)
    (fun _ _ he h => BellmanFord.relaxEdge_inv h he) k _ (BellmanFord.relaxInv_initial g source)
  have hb := BellmanFord.relaxRounds_bounded g k 0 _ (BellmanFord.bounded_initial g source)
  rw [Nat.zero_add] at hb
  exact ⟨hi.walk_of_ne_top, hb⟩

open BellmanFord in
/-- `bellman_ford(g, source)` with all `node_count - 1` sweeps run, none skipped. -/
def bellmanFordNoBreak (g : Network n (WithTop α)) (source : Fin n) :
    Except NegativeCycle ((Fin n → WithTop α) × (Fin n → Option (Fin n))) :=
  let st := relaxRoundsNoBreak g (n - 1) (initial source)
  if hasRelaxableEdge g st.distance then .error ⟨⟩ else .ok (st.distance, st.predecessor)

/-- **The early `break` changes no result.**  `bellman_ford` returns the same distances and
predecessors, or the same `NegativeCycle`, as the loop that runs every one of its
`node_count - 1` sweeps. -/
theorem bellmanFord_eq_noBreak (g : Network n (WithTop α)) (source : Fin n) :
    bellmanFord g source = bellmanFordNoBreak g source := by
  simp only [bellmanFord, bellmanFordNoBreak, BellmanFord.relaxRounds_eq_noBreak]

end Petgraph
