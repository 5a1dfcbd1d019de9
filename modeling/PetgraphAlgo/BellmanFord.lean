import PetgraphAlgo.Network
import Mathlib.Logic.Relation
import Mathlib.Algebra.Order.Ring.Defs
import Mathlib.Algebra.Order.Group.Int
import Mathlib.Algebra.Order.Ring.Int
import Mathlib.Data.Fin.VecNotation

/-!
# Bellman-Ford

`bellman_ford(g, source)` (`src/algo/mod.rs`) with its edge weights in an exact measure: a
linearly ordered additive group `α` extended with `infinite()`, that is `WithTop α`, where
`⊤ + w = ⊤`.  The model keeps the code's loops as they are: up to `node_count - 1` sweeps,
each running over `node_identifiers()` and then `edges(i)`, the early `break` after a sweep
that updated nothing, and a final check that reads the node of the outer loop.

The relaxation state satisfies `RelaxInv` at every point of the run: a finite distance is
the cost of a walk, the source's distance never rises above `0`, and every predecessor link
is backed by an edge.  When no negative cycle is reachable along walks of finite cost, the
predecessor links also stay acyclic (`relaxEdge_acyclic`), by the telescoping argument
on the cycle a new link would close.  After `k` sweeps every walk of at most `k` edges
costs at least the distance of its end (`relaxRounds_bounded`); with cycle removal that
leaves no edge relaxable after `n - 1` sweeps.

* `bellmanFord_error_iff_negCycle`: the call fails exactly when a cycle of negative cost is
  reachable from the source along a walk of finite cost.
* `bellmanFord_ok_shortest`: on success the distances are the least walk costs and the
  predecessor links spell out shortest walks.

An edge of weight `infinite()` never relaxes anything, so what lies behind it stays out of
reach: a negative cycle there causes no error (`bellmanFord_infinite_edge_hides_cycle`)
and a node there keeps distance `infinite()` and no predecessor
(`bellmanFord_infinite_edge_unreached`).
-/

namespace Petgraph

open Network

variable {n : ℕ} {α : Type} [LinearOrderedAddCommGroup α]

/-- The state of `bellman_ford` between two edges: `distance` and `predecessor`, both
indexed by node, and the sweep's `did_update`. -/
structure Relax (n : ℕ) (α : Type) where
  distance : Fin n → WithTop α
  predecessor : Fin n → Option (Fin n)
  didUpdate : Bool

/-- `NegativeCycle(())`. -/
structure NegativeCycle where
  deriving DecidableEq, Repr

namespace BellmanFord

/-- The body of the inner loop for `edge`, with `i = edge.source()`, `j = edge.target()` and
`w = *edge.weight()`: when `distance[i] + w < distance[j]`, lower `distance[j]`, point
`predecessor[j]` at `i` and set `did_update`. -/
def relaxEdge (st : Relax n α) (e : EdgeRef n (WithTop α)) : Relax n α :=
  if st.distance e.source + e.weight < st.distance e.target then
    ⟨Function.update st.distance e.target (st.distance e.source + e.weight),
      Function.update st.predecessor e.target (some e.source), true⟩
  else st

/-- One sweep: `for i in g.node_identifiers() { for edge in g.edges(i) { .. } }`. -/
def sweep (g : Network n (WithTop α)) (st : Relax n α) : Relax n α :=
  g.nodeIdentifiers.foldl (fun st i => (g.edges i).foldl relaxEdge st) st

/-- `k` more rounds of the loop `for _ in 1..g.node_count()`: clear `did_update`, sweep,
and `break` if the sweep updated nothing. -/
def relaxRounds (g : Network n (WithTop α)) : ℕ → Relax n α → Relax n α
  | 0, st => st
  | k + 1, st =>
    let st' := sweep g { st with didUpdate := false }
    if st'.didUpdate then relaxRounds g k st' else st'

/-- The negative cycle check: an edge leaving the node `i` of the outer loop, to `j` with
weight `w`, such that `distance[i] + w < distance[j]`. -/
def hasRelaxableEdge (g : Network n (WithTop α)) (distance : Fin n → WithTop α) : Bool :=
  g.nodeIdentifiers.any fun i =>
    (g.edges i).any fun e => decide (distance i + e.weight < distance e.target)

/-- Before the first sweep: `distance[source] = zero()`, every other distance
`infinite()`, every predecessor `None`. -/
def initial (source : Fin n) : Relax n α :=
  ⟨Function.update (fun _ => ⊤) source 0, fun _ => none, false⟩

end BellmanFord

open BellmanFord in
/-- `bellman_ford(g, source)`. -/
def bellmanFord (g : Network n (WithTop α)) (source : Fin n) :
    Except NegativeCycle ((Fin n → WithTop α) × (Fin n → Option (Fin n))) :=
  let st := relaxRounds g (n - 1) (initial source)
  if hasRelaxableEdge g st.distance then .error ⟨⟩ else .ok (st.distance, st.predecessor)

namespace BellmanFord

/-! ## One relaxation -/

variable {st : Relax n α} {e : EdgeRef n (WithTop α)}

/-- What one relaxation can do. -/
theorem relaxEdge_cases (st : Relax n α) (e : EdgeRef n (WithTop α)) :
    (st.distance e.source + e.weight < st.distance e.target ∧
      relaxEdge st e = ⟨Function.update st.distance e.target (st.distance e.source + e.weight),
        Function.update st.predecessor e.target (some e.source), true⟩) ∨
    (¬ st.distance e.source + e.weight < st.distance e.target ∧ relaxEdge st e = st) := by
  unfold relaxEdge
  split_ifs with h
  · exact .inl ⟨h, rfl⟩
  · exact .inr ⟨h, rfl⟩

theorem relaxEdge_distance_le (st : Relax n α) (e : EdgeRef n (WithTop α)) (v : Fin n) :
    (relaxEdge st e).distance v ≤ st.distance v := by
  rcases relaxEdge_cases st e with ⟨h, he⟩ | ⟨-, he⟩ <;> rw [he]
  by_cases hv : v = e.target
  · subst hv; simpa using h.le
  · simp [hv]

theorem relaxEdge_target_le (st : Relax n α) (e : EdgeRef n (WithTop α)) :
    (relaxEdge st e).distance e.target ≤ st.distance e.source + e.weight := by
  rcases relaxEdge_cases st e with ⟨-, he⟩ | ⟨h, he⟩ <;> rw [he]
  · simp
  · exact not_lt.1 h

/-! ## A list of relaxations -/

section Foldl

variable (L : List (EdgeRef n (WithTop α)))

theorem foldl_induction {P : Relax n α → Prop}
    (hstep : ∀ st, ∀ e ∈ L, P st → P (relaxEdge st e)) {st : Relax n α} (h : P st) :
    P (L.foldl relaxEdge st) := by
  induction L generalizing st with
  | nil => exact h
  | cons e L ih =>
    exact ih (fun st e he => hstep st e (List.mem_cons_of_mem _ he))
      (hstep st e (List.mem_cons_self _ _) h)

theorem foldl_distance_le (st : Relax n α) (v : Fin n) :
    (L.foldl relaxEdge st).distance v ≤ st.distance v := by
  induction L generalizing st with
  | nil => exact le_rfl
  | cons e L ih => exact (ih _).trans (relaxEdge_distance_le st e v)

/-- After the relaxations of `L`, no edge of `L` leaves a gap above its starting distance. -/
theorem foldl_target_le (st : Relax n α) (he : e ∈ L) :
    (L.foldl relaxEdge st).distance e.target ≤ st.distance e.source + e.weight := by
  induction L generalizing st with
  | nil => cases he
  | cons e' L ih =>
    rcases List.mem_cons.1 he with rfl | he
    · exact (foldl_distance_le L _ _).trans (relaxEdge_target_le st e)
    · exact (ih _ he).trans (add_le_add_right (relaxEdge_distance_le st e' _) _)

theorem foldl_didUpdate (st : Relax n α) (h : st.didUpdate = true) :
    (L.foldl relaxEdge st).didUpdate = true :=
  foldl_induction (P := fun st => st.didUpdate = true) L (fun st e _ h => by
    rcases relaxEdge_cases st e with ⟨-, he⟩ | ⟨-, he⟩ <;> rw [he]; exact h) h

/-- Relaxations that set no `did_update` changed nothing, and found no edge to relax. -/
theorem foldl_quiet (st : Relax n α) (h : (L.foldl relaxEdge st).didUpdate = false) :
    L.foldl relaxEdge st = st ∧
      ∀ e ∈ L, ¬ st.distance e.source + e.weight < st.distance e.target := by
  induction L generalizing st with
  | nil => exact ⟨rfl, fun _ he => by cases he⟩
  | cons e L ih =>
    rcases relaxEdge_cases st e with ⟨_, he⟩ | ⟨hne, he⟩
    · rw [List.foldl_cons, he, foldl_didUpdate L _ rfl] at h
      cases h
    · rw [List.foldl_cons, he] at h ⊢
      obtain ⟨h₁, h₂⟩ := ih st h
      exact ⟨h₁, fun e' he' => (List.mem_cons.1 he').elim (· ▸ hne) (h₂ e')⟩

end Foldl

/-! ## Sweeps and rounds -/

section Rounds

variable (g : Network n (WithTop α))

/-- The edges in the order one sweep relaxes them. -/
def edgeList : List (EdgeRef n (WithTop α)) := g.nodeIdentifiers.flatMap g.edges

omit [LinearOrderedAddCommGroup α] in
theorem mem_edgeList {e : EdgeRef n (WithTop α)} : e ∈ edgeList g ↔ e ∈ g.edges e.source := by
  simp only [edgeList, List.mem_flatMap]
  exact ⟨fun ⟨i, _, he⟩ => g.source_edges i e he ▸ he,
    fun he => ⟨_, g.mem_nodeIdentifiers _, he⟩⟩

theorem sweep_eq (st : Relax n α) : sweep g st = (edgeList g).foldl relaxEdge st := by
  simp [sweep, edgeList, List.flatMap, List.foldl_flatten, List.foldl_map]

/-- An invariant that every relaxation along an edge of `g` keeps holds after any number
of rounds. -/
theorem relaxRounds_induction {P : Relax n α → Prop}
    (hreset : ∀ st, P st → P { st with didUpdate := false })
    (hstep : ∀ st e, e ∈ g.edges e.source → P st → P (relaxEdge st e)) :
    ∀ k st, P st → P (relaxRounds g k st)
  | 0, _, h => h
  | k + 1, st, h => by
    have hs : P (sweep g { st with didUpdate := false }) := by
      rw [sweep_eq]
      exact foldl_induction _ (fun st e he => hstep st e ((mem_edgeList g).1 he)) (hreset st h)
    simp only [relaxRounds]
    split
    · exact relaxRounds_induction hreset hstep k _ hs
    · exact hs

/-- No edge `i → j` has `distance[i] + w < distance[j]`. -/
def Quiet (d : Fin n → WithTop α) : Prop :=
  ∀ i, ∀ e ∈ g.edges i, ¬ d i + e.weight < d e.target

theorem hasRelaxableEdge_eq_false (d : Fin n → WithTop α) :
    hasRelaxableEdge g d = false ↔ Quiet g d := by
  simp [hasRelaxableEdge, Quiet, g.mem_nodeIdentifiers]

/-- Along a walk through quiet distances, the distance rises by at most the walk's cost. -/
theorem Quiet.le_walkCost {d : Fin n → WithTop α} (hq : Quiet g d) {a b : Fin n}
    {p : List (EdgeRef n (WithTop α))} (hp : g.IsWalk a p b) :
    d b ≤ d a + walkCost EdgeRef.weight p := by
  induction p generalizing a with
  | nil => obtain rfl := hp; simp
  | cons e p ih =>
    calc d b ≤ d e.target + walkCost EdgeRef.weight p := ih hp.2
      _ ≤ d a + e.weight + walkCost EdgeRef.weight p :=
          add_le_add_right (not_lt.1 (hq a e hp.1)) _
      _ = d a + walkCost EdgeRef.weight (e :: p) := by simp [add_assoc]

/-- Every walk from `s` with at most `k` edges costs at least the distance of its end. -/
def Bounded (s : Fin n) (k : ℕ) (d : Fin n → WithTop α) : Prop :=
  ∀ v p, g.IsWalk s p v → p.length ≤ k → d v ≤ walkCost EdgeRef.weight p

theorem bounded_initial (s : Fin n) : Bounded g s 0 (initial (α := α) s).distance := by
  rintro v (_ | ⟨e, p⟩) hp hlen
  · obtain rfl := hp; simp [initial]
  · simp at hlen

theorem Bounded.source_le {s : Fin n} {k : ℕ} {d : Fin n → WithTop α} (h : Bounded g s k d) :
    d s ≤ 0 :=
  h s [] rfl (Nat.zero_le _)

/-- Quiet distances with `d s ≤ 0` bound every walk from `s`, however long. -/
theorem Quiet.bounded {s : Fin n} {d : Fin n → WithTop α} (hq : Quiet g d) (hs : d s ≤ 0)
    (k : ℕ) : Bounded g s k d := fun _ _ hp _ =>
  (hq.le_walkCost g hp).trans ((add_le_add_right hs _).trans_eq (zero_add _))

/-- **Sweep step.**  One more sweep bounds walks with one more edge. -/
theorem Bounded.sweep {s : Fin n} {k : ℕ} {st : Relax n α} (h : Bounded g s k st.distance) :
    Bounded g s (k + 1) (sweep g st).distance := by
  intro v p hp hlen
  rw [sweep_eq]
  rcases List.eq_nil_or_concat p with rfl | ⟨p, e, rfl⟩
  · obtain rfl := hp
    exact (foldl_distance_le _ _ _).trans h.source_le
  · rw [List.concat_eq_append] at hp hlen ⊢
    obtain ⟨hps, he, rfl⟩ := isWalk_concat.1 hp
    calc _ ≤ st.distance e.source + e.weight := foldl_target_le _ _ ((mem_edgeList g).2 he)
      _ ≤ walkCost EdgeRef.weight p + e.weight :=
          add_le_add_right (h _ p hps (by simpa using hlen)) _
      _ = walkCost EdgeRef.weight (p ++ [e]) := by simp

/-- **Round run.**  `k` more rounds bound walks with `k` more edges; a round that updated
nothing leaves quiet distances, which bound all walks. -/
theorem relaxRounds_bounded {s : Fin n} :
    ∀ k j (st : Relax n α), Bounded g s j st.distance →
      Bounded g s (j + k) (relaxRounds g k st).distance
  | 0, _, _, h => h
  | k + 1, j, st, h => by
    have hs : Bounded g s (j + 1) (sweep g { st with didUpdate := false }).distance :=
      Bounded.sweep g h
    simp only [relaxRounds]
    split
    · simpa [Nat.add_assoc, Nat.add_comm 1 k] using relaxRounds_bounded k (j + 1) _ hs
    · rename_i hq
      rw [sweep_eq] at hq ⊢
      obtain ⟨heq, hquiet⟩ := foldl_quiet _ _ (Bool.not_eq_true _ ▸ hq)
      rw [heq]
      refine Quiet.bounded g (fun i e he => ?_) h.source_le _
      exact g.source_edges i e he ▸ hquiet e ((mem_edgeList g).2 (g.source_edges i e he ▸ he))

end Rounds

/-! ## The relaxation invariant -/

section Invariant

variable (g : Network n (WithTop α)) (s : Fin n)

/-- What holds of the relaxation state at every point of a run from `s`. -/
structure RelaxInv (st : Relax n α) : Prop where
  /-- A finite distance is the cost of a walk from `s`. -/
  walk_of_ne_top : ∀ v, st.distance v ≠ ⊤ →
    ∃ p, g.IsWalk s p v ∧ walkCost EdgeRef.weight p = st.distance v
  source_le : st.distance s ≤ 0
  /-- A predecessor link `u = predecessor[v]` is backed by an edge `u → v` whose end is no
  cheaper than its start plus its weight. -/
  pred_edge : ∀ v u, st.predecessor v = some u → st.distance v ≠ ⊤ ∧
    ∃ e ∈ g.edges u, e.target = v ∧ st.distance u + e.weight ≤ st.distance v
  /-- Every node with a finite distance other than `s` has a predecessor. -/
  pred_of_ne_top : ∀ v, v ≠ s → st.distance v ≠ ⊤ → st.predecessor v ≠ none

theorem relaxInv_initial : RelaxInv g s (initial s) where
  walk_of_ne_top v hv := by
    by_cases h : v = s
    · subst h; exact ⟨[], rfl, by simp [initial]⟩
    · simp [initial, h] at hv
  source_le := by simp [initial]
  pred_edge _ _ h := by cases h
  pred_of_ne_top v hv h := by simp [initial, hv] at h

theorem predAcyclic_initial : PredAcyclic (initial (α := α) s).predecessor := fun _ h => by
  obtain ⟨_, h, -⟩ := Relation.TransGen.head'_iff.1 h
  cases h

variable {g s}

/-- **Relaxation step.**  Relaxing along an edge of `g` keeps the invariant. -/
theorem relaxEdge_inv {st : Relax n α} (hi : RelaxInv g s st) (he : e ∈ g.edges e.source) :
    RelaxInv g s (relaxEdge st e) := by
  rcases relaxEdge_cases st e with ⟨hlt, hst⟩ | ⟨-, hst⟩
  · have hmono := relaxEdge_distance_le st e
    rw [hst] at hmono ⊢
    have hfin : st.distance e.source + e.weight ≠ ⊤ := ne_top_of_lt hlt
    refine ⟨fun v hv => ?_, (hmono s).trans hi.source_le, fun v u hu => ?_, fun v hvs hv => ?_⟩
    · by_cases hvj : v = e.target
      · subst hvj
        obtain ⟨p, hp, hc⟩ := hi.walk_of_ne_top e.source (WithTop.add_ne_top.1 hfin).1
        exact ⟨p ++ [e], isWalk_concat.2 ⟨hp, he, rfl⟩, by simp [hc]⟩
      · simpa [hvj] using hi.walk_of_ne_top v (by simpa [hvj] using hv)
    · by_cases hvj : v = e.target
      · subst hvj
        obtain rfl : e.source = u := by simpa using hu
        exact ⟨by simpa using hfin, e, he, rfl,
          (add_le_add_right (hmono e.source) e.weight).trans_eq (by simp)⟩
      · obtain ⟨hv, e', he', hv', hle⟩ := hi.pred_edge v u (by simpa [hvj] using hu)
        refine ⟨by simpa [hvj] using hv, e', he', hv', ?_⟩
        simpa [hvj] using (add_le_add_right (hmono u) _).trans hle
    · by_cases hvj : v = e.target
      · subst hvj; simp
      · simpa [hvj] using hi.pred_of_ne_top v hvs (by simpa [hvj] using hv)
  · rw [hst]; exact hi

/-- Following predecessor links from `x` to `y` retraces a walk from `y` to `x` that
costs at most the difference of the two distances. -/
theorem RelaxInv.walk_of_predLinks {st : Relax n α} (hi : RelaxInv g s st) {x y : Fin n}
    (h : Relation.ReflTransGen (PredLink st.predecessor) x y) :
    ∃ p, g.IsWalk y p x ∧ st.distance y + walkCost EdgeRef.weight p ≤ st.distance x := by
  induction h with
  | refl => exact ⟨[], rfl, by simp⟩
  | tail _ hzy ih =>
    obtain ⟨p, hp, hle⟩ := ih
    obtain ⟨-, e, he, rfl, hle'⟩ := hi.pred_edge _ _ hzy
    refine ⟨e :: p, ⟨he, hp⟩, ?_⟩
    calc _ = st.distance _ + e.weight + walkCost EdgeRef.weight p := by simp [add_assoc]
      _ ≤ _ := (add_le_add_right hle' _).trans hle

/-- **Acyclicity step.**  Without a reachable negative cycle, relaxing along an edge keeps
the predecessor links acyclic: a cycle closed by the new link `j → i` would retrace a walk
from `j` to `i` which, with the edge `i → j` that was just relaxed, is a cycle of negative
cost through the reachable node `j`. -/
theorem relaxEdge_acyclic {st : Relax n α} (hneg : ¬ g.NegCycleFrom EdgeRef.weight s)
    (hi : RelaxInv g s st) (he : e ∈ g.edges e.source) (ha : PredAcyclic st.predecessor) :
    PredAcyclic (relaxEdge st e).predecessor := by
  rcases relaxEdge_cases st e with ⟨hlt, hst⟩ | ⟨-, hst⟩
  · rw [hst]
    refine ha.update fun hij => ?_
    obtain ⟨p, hp, hle⟩ := hi.walk_of_predLinks hij
    have hcyc : st.distance e.target + walkCost EdgeRef.weight (p ++ [e]) <
          st.distance e.target + 0 := by
      calc _ = st.distance e.target + walkCost EdgeRef.weight p + e.weight := by
            simp [add_assoc]
        _ ≤ st.distance e.source + e.weight := add_le_add_right hle _
        _ < _ := by simpa using hlt
    have hj : st.distance e.target ≠ ⊤ := fun h => by simp [h] at hcyc
    obtain ⟨q, hq, hc⟩ := hi.walk_of_ne_top e.target hj
    exact hneg ⟨e.target, ⟨q, hq, hc ▸ hj⟩, p ++ [e], isWalk_concat.2 ⟨hp, he, rfl⟩,
      lt_of_add_lt_add_left hcyc⟩
  · rw [hst]; exact ha

end Invariant

/-! ## The state after the loop -/

section Final

variable (g : Network n (WithTop α)) (s : Fin n)

theorem final_inv : RelaxInv g s (relaxRounds g (n - 1) (initial s)) :=
  relaxRounds_induction g (fun _ h => ⟨h.1, h.2, h.3, h.4⟩) (fun _ _ he h => relaxEdge_inv h he)
    _ _ (relaxInv_initial g s)

theorem final_bounded : Bounded g s (n - 1) (relaxRounds g (n - 1) (initial s)).distance := by
  simpa using relaxRounds_bounded g (n - 1) 0 _ (bounded_initial g s)

theorem final_acyclic (hneg : ¬ g.NegCycleFrom EdgeRef.weight s) :
    PredAcyclic (relaxRounds g (n - 1) (initial s)).predecessor :=
  (relaxRounds_induction g (P := fun st => RelaxInv g s st ∧ PredAcyclic st.predecessor)
    (fun _ h => ⟨⟨h.1.1, h.1.2, h.1.3, h.1.4⟩, h.2⟩)
    (fun _ _ he h => ⟨relaxEdge_inv h.1 he, relaxEdge_acyclic hneg h.1 he h.2⟩) _ _
    ⟨relaxInv_initial g s, predAcyclic_initial s⟩).2

variable {g s}

/-- Without a reachable negative cycle, distances that bound every walk of fewer than `n`
edges leave no edge to relax: a relaxable edge would extend a walk to a cheaper one, and
cycle removal would make that one short. -/
theorem quiet_of_bounded {st : Relax n α} (hneg : ¬ g.NegCycleFrom EdgeRef.weight s)
    (hi : RelaxInv g s st) (hb : Bounded g s (n - 1) st.distance) : Quiet g st.distance := by
  intro i e he hlt
  obtain rfl := g.source_edges i e he
  obtain ⟨p, hp, hc⟩ := hi.walk_of_ne_top e.source (WithTop.add_ne_top.1 (ne_top_of_lt hlt)).1
  obtain ⟨q, hq, hnd, hle⟩ := exists_simple_walk_le hneg (isWalk_concat.2 ⟨hp, he, rfl⟩)
  have hlen := length_lt_of_nodup hnd
  refine absurd ((hb _ q hq (by omega)).trans (hle.trans ?_)) (not_le.2 hlt)
  simp [hc]

/-- Quiet distances with `d s ≤ 0` rule out a negative cycle that `s` reaches. -/
theorem not_negCycle_of_quiet {d : Fin n → WithTop α} (hq : Quiet g d) (hs : d s ≤ 0) :
    ¬ g.NegCycleFrom EdgeRef.weight s := by
  rintro ⟨x, ⟨p, hp, hfin⟩, cyc, hcyc, hneg⟩
  have hx : d x ≠ ⊤ := ne_top_of_le_ne_top hfin (hq.bounded g hs _ x p hp le_rfl)
  have := hq.le_walkCost g hcyc
  exact absurd this (not_le.2 (by simpa using WithTop.add_lt_add_left hx hneg))

/-- **Predecessor chains.**  In a quiet final state, following predecessor links from a node
with a finite distance visits no node twice and ends at `s`; each link is an edge whose
weight is exactly the difference of the distances, so the chain read backwards is a walk
from `s` costing the node's distance. -/
theorem exists_predChain {st : Relax n α} (hi : RelaxInv g s st)
    (ha : PredAcyclic st.predecessor) (hq : Quiet g st.distance) (hs : st.distance s = 0)
    (v : Fin n) (hv : st.distance v ≠ ⊤) :
    ∃ rest : List (Fin n), (v :: rest).Nodup ∧ (v :: rest).getLast (List.cons_ne_nil v rest) = s ∧
      (v :: rest).Chain' (fun w u => st.predecessor w = some u ∧
        ∃ e ∈ g.edges u, e.target = w ∧ st.distance u + e.weight = st.distance w) ∧
      ∃ p, g.IsWalk s p v ∧ walkNodes s p = (v :: rest).reverse ∧
        walkCost EdgeRef.weight p = st.distance v := by
  obtain ⟨rest, hnd, hch, hlast⟩ := ha.exists_chain v
  have hfin : ∀ x, Relation.ReflTransGen (PredLink st.predecessor) v x → st.distance x ≠ ⊤ := by
    intro x hx
    induction hx with
    | refl => exact hv
    | tail _ hyz ih =>
      obtain ⟨-, e, -, rfl, hle⟩ := hi.pred_edge _ _ hyz
      exact fun h => ih (top_le_iff.1 (by simpa [h] using hle))
  have hend : (v :: rest).getLast (List.cons_ne_nil v rest) = s := by_contra fun h =>
    hi.pred_of_ne_top _ h (hfin _ (reflTransGen_of_mem_chain hch (List.getLast_mem _))) hlast
  have htight : (v :: rest).Chain' fun w u => st.predecessor w = some u ∧
      ∃ e ∈ g.edges u, e.target = w ∧ st.distance u + e.weight = st.distance w :=
    hch.imp fun w u hwu => by
      obtain ⟨-, e, he, rfl, hle⟩ := hi.pred_edge _ _ hwu
      exact ⟨hwu, e, he, rfl, le_antisymm hle (not_lt.1 (hq u e he))⟩
  exact ⟨rest, hnd, hend, htight, walk_of_chain hs v rest (htight.imp fun _ _ h => h.2) hend⟩

end Final

end BellmanFord

open BellmanFord

/-! ## The results -/

namespace BellmanFord

variable {g : Network n (WithTop α)} {source : Fin n}

/-- Without a negative cycle reachable along walks of finite weight, `bellman_ford` succeeds
with the distances and predecessors the loop leaves. -/
theorem ok_of_not_negCycle (hneg : ¬ g.NegCycleFrom EdgeRef.weight source) :
    bellmanFord g source = .ok ((relaxRounds g (n - 1) (initial source)).distance,
      (relaxRounds g (n - 1) (initial source)).predecessor) := by
  simp [bellmanFord, (hasRelaxableEdge_eq_false g _).2
    (quiet_of_bounded hneg (final_inv g source) (final_bounded g source))]

/-- A successful call returns the state the loop leaves, in which no edge can be relaxed. -/
theorem ok_inv {distance : Fin n → WithTop α} {predecessor : Fin n → Option (Fin n)}
    (h : bellmanFord g source = .ok (distance, predecessor)) :
    distance = (relaxRounds g (n - 1) (initial source)).distance ∧
      predecessor = (relaxRounds g (n - 1) (initial source)).predecessor ∧ Quiet g distance := by
  simp only [bellmanFord] at h
  split at h
  · cases h
  · obtain ⟨rfl, rfl⟩ := Prod.mk.inj (Except.ok.inj h)
    exact ⟨rfl, rfl, (hasRelaxableEdge_eq_false g _).1 (Bool.not_eq_true _ ▸ ‹_›)⟩

/-- On success, every distance is the least cost of a walk from `source` (`⊤` if none is
finite). -/
theorem ok_distance {distance : Fin n → WithTop α} {predecessor : Fin n → Option (Fin n)}
    (h : bellmanFord g source = .ok (distance, predecessor)) :
    (∀ v q, g.IsWalk source q v → distance v ≤ walkCost EdgeRef.weight q) ∧
      ∀ v, distance v = ⊤ ∨ ∃ q, g.IsWalk source q v ∧ walkCost EdgeRef.weight q = distance v := by
  obtain ⟨rfl, -, hq⟩ := ok_inv h
  have hi := final_inv g source
  refine ⟨fun v q hq' => hq.bounded g hi.source_le q.length v q hq' le_rfl, fun v => ?_⟩
  by_cases hv : (relaxRounds g (n - 1) (initial source)).distance v = ⊤
  exacts [.inl hv, .inr (hi.walk_of_ne_top v hv)]

end BellmanFord

/-- **Negative cycles.**  `bellman_ford(g, source)` returns `Err(NegativeCycle)` exactly when
a cycle of negative total weight is reachable from `source` along a walk of finite
weight. -/
theorem bellmanFord_error_iff_negCycle (g : Network n (WithTop α)) (source : Fin n) :
    bellmanFord g source = .error ⟨⟩ ↔ g.NegCycleFrom EdgeRef.weight source := by
  refine ⟨fun h => Classical.byContradiction fun hneg => ?_, fun hneg => ?_⟩
  · rw [ok_of_not_negCycle hneg] at h
    cases h
  · cases h : bellmanFord g source with
    | error e => rfl
    | ok r =>
      obtain ⟨hd, -, hq⟩ := ok_inv (h.trans rfl : bellmanFord g source = .ok (r.1, r.2))
      refine (not_negCycle_of_quiet hq ?_ hneg).elim
      rw [hd]
      exact (final_inv g source).source_le

/-- What `bellman_ford(g, source)` promises on success about `(distance, predecessor)`. -/
structure ShortestPaths (g : Network n (WithTop α)) (source : Fin n)
    (distance : Fin n → WithTop α) (predecessor : Fin n → Option (Fin n)) : Prop where
  /-- No walk from `source` costs less than the distance of its end. -/
  distance_le : ∀ v p, g.IsWalk source p v → distance v ≤ walkCost EdgeRef.weight p
  /-- A finite distance is the cost of a walk, so each distance is the least walk cost. -/
  distance_attained : ∀ v,
    distance v = ⊤ ∨ ∃ p, g.IsWalk source p v ∧ walkCost EdgeRef.weight p = distance v
  distance_eq_top : ∀ v, distance v = ⊤ ↔ ¬ g.ReachFinite EdgeRef.weight source v
  pred_source : predecessor source = none
  pred_none : ∀ v, ¬ g.ReachFinite EdgeRef.weight source v → predecessor v = none
  /-- Following predecessor links from `v` visits no node twice and ends at `source`; each
  link `u = predecessor[w]` is an edge `u → w` with `distance[u] + weight = distance[w]`,
  and the chain read backwards is a walk from `source` costing `distance[v]`. -/
  pred_chain : ∀ v, g.ReachFinite EdgeRef.weight source v → ∃ chain : List (Fin n),
    chain.head? = some v ∧ chain.getLast? = some source ∧ chain.Nodup ∧
    chain.Chain' (fun w u => predecessor w = some u ∧
      ∃ e ∈ g.edges u, e.target = w ∧ distance u + e.weight = distance w) ∧
    ∃ p, g.IsWalk source p v ∧ walkNodes source p = chain.reverse ∧
      walkCost EdgeRef.weight p = distance v

/-- **Shortest paths.**  When `bellman_ford(g, source)` returns `Ok((distance, predecessor))`,
`distance[v]` is the least weight of a walk from `source` to `v` (`infinite()` when there is
none), it is finite exactly when `v` is reachable along a walk of finite weight, nodes not
reachable so have no predecessor, `source` has none, and following predecessor links from
any other node retraces a shortest walk back to `source`. -/
theorem bellmanFord_ok_shortest (g : Network n (WithTop α)) (source : Fin n)
    (distance : Fin n → WithTop α) (predecessor : Fin n → Option (Fin n))
    (h : bellmanFord g source = .ok (distance, predecessor)) :
    ShortestPaths g source distance predecessor := by
  obtain ⟨hle, hatt⟩ := ok_distance h
  obtain ⟨rfl, rfl, hq⟩ := ok_inv h
  have hi := final_inv g source
  have hneg := not_negCycle_of_quiet hq hi.source_le
  have ha := final_acyclic g source hneg
  set st := relaxRounds g (n - 1) (initial source)
  have hs : st.distance source = 0 := by
    obtain ⟨p, hp, hc⟩ := hi.walk_of_ne_top source (ne_top_of_le_ne_top (by simp) hi.source_le)
    exact le_antisymm hi.source_le (not_lt.1 fun hlt =>
      hneg ⟨source, ⟨[], rfl, by simp⟩, p, hp, hc ▸ hlt⟩)
  have htop : ∀ v, st.distance v = ⊤ ↔ ¬ g.ReachFinite EdgeRef.weight source v := fun v =>
    ⟨fun hv ⟨p, hp, hfin⟩ => hfin (top_le_iff.1 (hv ▸ hle v p hp)),
      fun hv => (hatt v).elim id fun ⟨p, hp, hc⟩ => Classical.byContradiction fun h =>
        hv ⟨p, hp, by rw [hc]; exact h⟩⟩
  refine ⟨hle, hatt, htop, ?_, fun v hv => ?_, fun v hv => ?_⟩
  · refine Option.eq_none_iff_forall_not_mem.2 fun u hu => ?_
    obtain ⟨hfin, e, -, -, hle'⟩ := hi.pred_edge _ u hu
    have hu_fin : st.distance u ≠ ⊤ := fun h => hfin (top_le_iff.1 (by simpa [h] using hle'))
    obtain ⟨rest, -, hend, hch, -⟩ := exists_predChain hi ha hq hs u hu_fin
    have hreach := reflTransGen_of_mem_chain (hch.imp fun _ _ h => h.1)
      (List.getLast_mem (List.cons_ne_nil u rest))
    rw [hend] at hreach
    exact ha _ (.head' hu hreach)
  · cases hp : st.predecessor v with
    | none => rfl
    | some u => exact absurd ((htop v).2 hv) (hi.pred_edge v u hp).1
  · obtain ⟨rest, hnd, hend, hch, hwalk⟩ :=
      exists_predChain hi ha hq hs v (mt (htop v).1 (not_not.2 hv))
    exact ⟨v :: rest, rfl, by rw [List.getLast?_eq_getLast _ (List.cons_ne_nil _ _), hend], hnd,
      hch, hwalk⟩

/-! ## The example of the documentation, and edges of weight `infinite()` -/

/-- The directed graph of the example in the documentation of `bellman_ford`, with its
edges listed newest first, as `Graph::edges` yields them. -/
def docNetwork : Network 6 (WithTop ℤ) where
  nodeIdentifiers := List.finRange 6
  edges := ![[⟨1, 0, 3, (4 : ℤ)⟩, ⟨0, 0, 1, (2 : ℤ)⟩], [⟨3, 1, 5, (7 : ℤ)⟩, ⟨2, 1, 2, (1 : ℤ)⟩],
    [⟨4, 2, 4, (5 : ℤ)⟩], [⟨6, 3, 4, (1 : ℤ)⟩], [⟨5, 4, 5, (1 : ℤ)⟩], []]
  nodup_nodeIdentifiers := List.nodup_finRange 6
  mem_nodeIdentifiers := List.mem_finRange
  source_edges := by decide

/-- The documented result on the documented graph, and what it means. -/
theorem bellmanFord_docNetwork :
    bellmanFord docNetwork 0 = .ok ((![0, 2, 3, 4, 5, 6] : Fin 6 → WithTop ℤ),
      ![none, some 0, some 1, some 0, some 3, some 4]) ∧
    ShortestPaths docNetwork 0 ![0, 2, 3, 4, 5, 6] ![none, some 0, some 1, some 0, some 3, some 4] := by
  have h : bellmanFord docNetwork 0 = .ok ((![0, 2, 3, 4, 5, 6] : Fin 6 → WithTop ℤ),
      ![none, some 0, some 1, some 0, some 3, some 4]) := by
    have hd : (relaxRounds docNetwork (6 - 1) (initial 0)).distance = ![0, 2, 3, 4, 5, 6] :=
      funext (by decide)
    have hp : (relaxRounds docNetwork (6 - 1) (initial 0)).predecessor =
        ![none, some 0, some 1, some 0, some 3, some 4] := funext (by decide)
    simp only [bellmanFord]
    rw [if_neg (by decide), hd, hp]
  exact ⟨h, bellmanFord_ok_shortest _ _ _ _ h⟩

/-- Two nodes, an edge `0 → 1` of weight `infinite()` and a loop of weight `-1` at `1`. -/
def hiddenCycleNetwork : Network 2 (WithTop ℤ) where
  nodeIdentifiers := [0, 1]
  edges := ![[⟨0, 0, 1, ⊤⟩], [⟨1, 1, 1, (-1 : ℤ)⟩]]
  nodup_nodeIdentifiers := by decide
  mem_nodeIdentifiers := by decide
  source_edges := by decide

/-- A negative cycle reachable from the source only across an edge of weight `infinite()`
causes no error: `distance[1]` stays `infinite()`, and `infinite() + (-1)` is not below it. -/
theorem bellmanFord_infinite_edge_hides_cycle :
    (∃ x, hiddenCycleNetwork.IsWalk 0 [⟨0, 0, 1, ⊤⟩] x ∧
      ∃ cyc, hiddenCycleNetwork.IsWalk x cyc x ∧ walkCost EdgeRef.weight cyc < 0) ∧
    ∃ r, bellmanFord hiddenCycleNetwork 0 = .ok r :=
  ⟨⟨1, ⟨by decide, rfl⟩, [⟨1, 1, 1, (-1 : ℤ)⟩], ⟨by decide, rfl⟩, by decide⟩,
    _, by simp only [bellmanFord]; rw [if_neg (by decide)]⟩

/-- Two nodes and one edge `0 → 1` of weight `infinite()`. -/
def infiniteEdgeNetwork : Network 2 (WithTop ℤ) where
  nodeIdentifiers := [0, 1]
  edges := ![[⟨0, 0, 1, ⊤⟩], []]
  nodup_nodeIdentifiers := by decide
  mem_nodeIdentifiers := by decide
  source_edges := by decide

/-- Node `1` is reachable from `0`, yet `bellman_ford` leaves it at distance `infinite()`
with no predecessor. -/
theorem bellmanFord_infinite_edge_unreached :
    infiniteEdgeNetwork.IsWalk 0 [⟨0, 0, 1, ⊤⟩] 1 ∧ ∃ distance predecessor,
      bellmanFord infiniteEdgeNetwork 0 = .ok (distance, predecessor) ∧
        distance 1 = ⊤ ∧ predecessor 1 = none :=
  ⟨⟨by decide, rfl⟩, _, _, by simp only [bellmanFord]; rw [if_neg (by decide)], by decide,
    by decide⟩

end Petgraph
