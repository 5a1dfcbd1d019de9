import PetgraphAlgo.Toposort

/-!
# `is_cyclic_directed`

`is_cyclic_directed(g)` (`src/algo/mod.rs`) runs `depth_first_search` from every node with a
visitor that returns `Err(())` at a `BackEdge` event, and answers whether the search returned
`Err`.  `depth_first_search` and `DfsEvent` belong to petgraph's `visit` module, which is not
part of this repository; they are modelled from the spec.  `dfs_visitor(u)` marks `u`
discovered and reports `Discover`, then walks the neighbours of `u`: an undiscovered one gives
a `TreeEdge` and a recursive call, a discovered and unfinished one a `BackEdge`, a finished one
a `CrossForwardEdge`.  Last it marks `u` finished and reports `Finish`.  A visitor returning
`Err` stops the whole search.

The nodes discovered and not finished are the calls under way, and each reaches the node being
visited, so a back edge closes a cycle.  When the search goes through, every node is finished.
A finished node's successors finished before it, at an earlier time, so the finish times
decrease along every edge and there is no cycle.

* `dfsVisitor_spec`: what one call of `dfs_visitor` guarantees, on enough fuel;
* `isCyclicDirected_spec`: `is_cyclic_directed` decides whether `g` has a directed cycle, and
  agrees with `toposort`.
-/

namespace Petgraph

variable {n : ℕ} {ε : Type}

/-- Modelled from the spec: `DfsEvent<N>` of petgraph's `visit` module. -/
inductive DfsEvent (n : ℕ) where
  | discover (u : Fin n) (time : ℕ)
  | treeEdge (u v : Fin n)
  | backEdge (u v : Fin n)
  | crossForwardEdge (u v : Fin n)
  | finish (u : Fin n) (time : ℕ)
  deriving DecidableEq, Repr

/-- Modelled from the spec: the visit maps `discovered` and `finished` and the clock `time`
that `depth_first_search` threads through its calls. -/
structure DfsVisitState (n : ℕ) where
  discovered : Finset (Fin n)
  finished : Finset (Fin n)
  time : ℕ

/-- Modelled from the spec: one round of `for v in graph.neighbors(u) { ... }` in
`dfs_visitor`, with `call` the recursive `dfs_visitor(graph, v, ...)`, for a visitor returning
`Result` (`Err` breaks the search, nothing prunes). -/
def dfsNeighbor (visitor : DfsEvent n → Except ε Unit)
    (call : Fin n → DfsVisitState n → Except ε (DfsVisitState n)) (u : Fin n)
    (st : DfsVisitState n) (v : Fin n) : Except ε (DfsVisitState n) :=
  if v ∉ st.discovered then do
    visitor (.treeEdge u v)
    call v st
  else if v ∉ st.finished then do
    visitor (.backEdge u v)
    pure st
  else do
    visitor (.crossForwardEdge u v)
    pure st

/-- Modelled from the spec: `dfs_visitor(graph, u, visitor, discovered, finished, time)`, at
most `fuel` calls deep. -/
def dfsVisitor (g : Graph n) (visitor : DfsEvent n → Except ε Unit) :
    ℕ → Fin n → DfsVisitState n → Except ε (DfsVisitState n)
  | 0, _, st => pure st
  | fuel + 1, u, st =>
    if u ∈ st.discovered then pure st
    else do
      visitor (.discover u st.time)
      let st ← (g.neighbors u).foldlM (dfsNeighbor visitor (dfsVisitor g visitor fuel) u)
        { st with discovered := insert u st.discovered, time := st.time + 1 }
      visitor (.finish u st.time)
      pure { st with finished := insert u st.finished, time := st.time + 1 }

/-- Modelled from the spec: `depth_first_search(graph, starts, visitor)`: `dfs_visitor` from
each start in turn, over fresh visit maps and a clock at zero. -/
def depthFirstSearch (g : Graph n) (starts : List (Fin n))
    (visitor : DfsEvent n → Except ε Unit) : Except ε Unit := do
  let _ ← starts.foldlM (fun st start => dfsVisitor g visitor (n + 1) start st) ⟨∅, ∅, 0⟩
  pure ()

/-- The visitor of `is_cyclic_directed`: `Err(())` at a back edge, `Ok(())` otherwise. -/
def backEdgeVisitor : DfsEvent n → Except Unit Unit
  | .backEdge _ _ => .error ()
  | _ => .ok ()

/-- `is_cyclic_directed(g)`: `depth_first_search(g, g.node_identifiers(), ..).is_err()`. -/
def isCyclicDirected (g : Graph n) : Bool :=
  match depthFirstSearch g g.nodeIdentifiers backEdgeVisitor with
  | .error _ => true
  | .ok _ => false

/-! ## Runs that may break -/

/-- What a run ends in: `E` when the visitor broke it, `Q` of the state when it went through. -/
def ExceptPost {σ : Type} (E : Prop) (Q : σ → Prop) : Except ε σ → Prop
  | .error _ => E
  | .ok s => Q s

/-- A loop over `l` whose every round, from a state meeting `Q` of the items done, ends in `E`
or in `Q` of one item more, ends in `E` or in `Q` of all of `l`. -/
theorem foldlM_post {σ α : Type} {f : σ → α → Except ε σ} {E : Prop}
    (Q : List α → σ → Prop) : ∀ (l done : List α) (s : σ), Q done s →
      (∀ done a s, a ∈ l → Q done s → ExceptPost E (Q (done ++ [a])) (f s a)) →
      ExceptPost E (Q (done ++ l)) (l.foldlM f s)
  | [], done, s, h, _ => by simpa [ExceptPost] using h
  | a :: l, done, s, h, hf => by
    have ha := hf done a s (List.mem_cons_self a l) h
    rw [List.foldlM_cons]
    cases hfa : f s a with
    | error e => rw [hfa] at ha; exact ha
    | ok s' =>
      rw [hfa] at ha
      simpa using foldlM_post Q l (done ++ [a]) s' ha fun done b s hb =>
        hf done b s (List.mem_cons_of_mem a hb)

/-! ## The invariant -/

/-- The state of the search with the calls `P` under way: the nodes discovered and not
finished are those of `P`, and the finished nodes carry ranks below the clock that decrease
along every edge, the successors of a finished node being finished. -/
structure DfsInv (g : Graph n) (P : List (Fin n)) (st : DfsVisitState n) : Prop where
  nodup : P.Nodup
  gray : ∀ x, x ∈ P ↔ x ∈ st.discovered ∧ x ∉ st.finished
  finished_subset : st.finished ⊆ st.discovered
  ranked : ∃ rank : Fin n → ℕ, ∀ u ∈ st.finished, rank u < st.time ∧
    ∀ v, g.Adj u v → v ∈ st.finished ∧ rank v < rank u

namespace DfsInv

variable {g : Graph n} {P : List (Fin n)} {st : DfsVisitState n} {u : Fin n}

theorem init : DfsInv g [] ⟨∅, ∅, 0⟩ :=
  ⟨List.nodup_nil, by simp, subset_rfl, ⟨fun _ => 0, by simp⟩⟩

/-- Discovering `u` makes it the innermost call. -/
theorem discover (I : DfsInv g P st) (hu : u ∉ st.discovered) :
    DfsInv g (P ++ [u]) { st with discovered := insert u st.discovered, time := st.time + 1 } := by
  obtain ⟨rank, hrank⟩ := I.ranked
  have huP : u ∉ P := fun h => hu ((I.gray u).1 h).1
  have huF : u ∉ st.finished := fun h => hu (I.finished_subset h)
  refine ⟨List.nodup_append.2 ⟨I.nodup, List.nodup_singleton u, by simpa using huP⟩,
    fun x => ?_, I.finished_subset.trans (Finset.subset_insert u _),
    ⟨rank, fun v hv => ⟨by have := (hrank v hv).1; simp only at this ⊢; omega, (hrank v hv).2⟩⟩⟩
  by_cases hx : x = u
  · subst hx; simp [huF]
  · simp [hx, I.gray x]

/-- Finishing the innermost call `u`, all of whose successors are finished, at the current
time. -/
theorem finish (I : DfsInv g (P ++ [u]) st) (hsucc : ∀ v, g.Adj u v → v ∈ st.finished) :
    DfsInv g P { st with finished := insert u st.finished, time := st.time + 1 } := by
  obtain ⟨rank, hrank⟩ := I.ranked
  have hnd := I.nodup
  rw [List.nodup_append] at hnd
  have huP : u ∉ P := fun h => hnd.2.2 h (List.mem_singleton_self u)
  have hu := (I.gray u).1 (List.mem_append_right _ (List.mem_singleton_self u))
  -- `u` was not finished, so the old ranks stay and `u` takes the current time
  have hne : ∀ {v}, v ∈ st.finished → v ≠ u := fun hv h => hu.2 (h ▸ hv)
  refine ⟨hnd.1, fun x => ?_, Finset.insert_subset hu.1 I.finished_subset,
    ⟨Function.update rank u st.time, fun w hw => ?_⟩⟩
  · by_cases hx : x = u
    · subst hx; simp [huP]
    · simp [hx, ← I.gray x]
  · dsimp only at hw ⊢
    rcases Finset.mem_insert.1 hw with rfl | hw
    · refine ⟨by simp, fun v hv => ?_⟩
      have hvF := hsucc v hv
      simp [hvF, hne hvF, (hrank v hvF).1]
    · refine ⟨by simp [hne hw]; have := (hrank w hw).1; omega, fun v hv => ?_⟩
      have hvF := ((hrank w hw).2 v hv).1
      simp [hvF, hne hvF, hne hw, ((hrank w hw).2 v hv).2]

/-- With every node finished, the ranks decrease along every walk, so there is no cycle. -/
theorem acyclic (I : DfsInv g P st) (hall : ∀ v, v ∈ st.finished) : g.Acyclic := by
  obtain ⟨rank, hrank⟩ := I.ranked
  have hdec : ∀ a b, Relation.TransGen g.Adj a b → rank b < rank a := fun a b h => by
    induction h with
    | single hab => exact ((hrank _ (hall _)).2 _ hab).2
    | tail _ hbc ih => exact lt_trans ((hrank _ (hall _)).2 _ hbc).2 ih
  exact fun a h => lt_irrefl _ (hdec a a h)

end DfsInv

/-! ## `dfs_visitor` -/

section visitor

variable {g : Graph n} {P : List (Fin n)} {u : Fin n} {st : DfsVisitState n}

/-- What `dfs_visitor(u)` guarantees, called with the calls `P` under way from `st`: a cycle
when the visitor broke the search, and otherwise the invariant, `u` finished and no finished
node forgotten. -/
def VisitPost (g : Graph n) (P : List (Fin n)) (u : Fin n) (st : DfsVisitState n) :
    Except Unit (DfsVisitState n) → Prop :=
  ExceptPost (¬ g.Acyclic) fun st' => DfsInv g P st' ∧ u ∈ st'.finished ∧ st.finished ⊆ st'.finished

/-- The loop over the neighbours of `u`, with the calls `P ++ [u]` under way: the invariant,
the neighbours done finished, and what was finished kept. -/
def NeighborInv (g : Graph n) (P : List (Fin n)) (u : Fin n) (st₀ : DfsVisitState n)
    (done : List (Fin n)) (st : DfsVisitState n) : Prop :=
  DfsInv g (P ++ [u]) st ∧ (∀ v ∈ done, v ∈ st.finished) ∧ st₀.finished ⊆ st.finished

/-- On an undiscovered node `dfs_visitor` runs the loop over the neighbours, then finishes the
node: `Discover` and `Finish` never break `backEdgeVisitor`. -/
theorem dfsVisitor_succ_of_not_mem {fuel : ℕ} (hu : u ∉ st.discovered) :
    dfsVisitor g backEdgeVisitor (fuel + 1) u st =
      (g.neighbors u).foldlM (dfsNeighbor backEdgeVisitor (dfsVisitor g backEdgeVisitor fuel) u)
        { st with discovered := insert u st.discovered, time := st.time + 1 } >>= fun st =>
        pure { st with finished := insert u st.finished, time := st.time + 1 } := by
  rw [dfsVisitor, if_neg hu]
  rfl

/-- One round of the loop over the neighbours of `u`: a tree edge calls `dfs_visitor(v)`, a back
edge closes a cycle through the calls under way, and a cross or forward edge goes to a finished
node. -/
theorem dfsNeighbor_post {call : Fin n → DfsVisitState n → Except Unit (DfsVisitState n)}
    {st₀ : DfsVisitState n} {done : List (Fin n)} {v : Fin n}
    (hcall : ∀ st, DfsInv g (P ++ [u]) st → v ∉ st.discovered →
      VisitPost g (P ++ [u]) v st (call v st))
    (hreach : ∀ y ∈ P ++ [u], g.Reach y u) (hv : g.Adj u v)
    (L : NeighborInv g P u st₀ done st) :
    ExceptPost (¬ g.Acyclic) (NeighborInv g P u st₀ (done ++ [v]))
      (dfsNeighbor backEdgeVisitor call u st v) := by
  obtain ⟨I, hdone, hsub⟩ := L
  unfold dfsNeighbor
  by_cases hd : v ∈ st.discovered
  · by_cases hf : v ∈ st.finished
    · simp only [hd, hf, not_true_eq_false, if_false]
      exact ⟨I, List.forall_mem_append.2 ⟨hdone, List.forall_mem_singleton.2 hf⟩, hsub⟩
    · simp only [hd, hf, not_true_eq_false, not_false_eq_true, if_false, if_true]
      exact fun hacyc => hacyc v (Relation.TransGen.tail' (hreach v ((I.gray v).2 ⟨hd, hf⟩)) hv)
  · simp only [hd, not_false_eq_true, if_true]
    have h := hcall st I hd
    cases hc : call v st with
    | error e => rw [hc] at h; exact h
    | ok st' =>
      rw [hc] at h
      obtain ⟨I', hv', hsub'⟩ := h
      exact ⟨I', List.forall_mem_append.2 ⟨fun w hw => hsub' (hdone w hw),
        List.forall_mem_singleton.2 hv'⟩, hsub.trans hsub'⟩

/-- **`dfs_visitor(u)`** on a node outside the calls under way, which all of them reach, with
fuel at least the number of nodes outside those calls. -/
theorem dfsVisitor_spec : ∀ (fuel : ℕ) (P : List (Fin n)) (u : Fin n) (st : DfsVisitState n),
    n ≤ fuel + P.length → DfsInv g P st → u ∉ P → (∀ y ∈ P, g.Reach y u) →
    VisitPost g P u st (dfsVisitor g backEdgeVisitor fuel u st)
  | 0, P, u, st, hfuel, I, hu, _ => by
    have hnd : (u :: P).Nodup := List.nodup_cons.2 ⟨hu, I.nodup⟩
    have := hnd.length_le_card
    simp only [List.length_cons, Fintype.card_fin] at this
    omega
  | fuel + 1, P, u, st, hfuel, I, hu, hreach => by
    by_cases hd : u ∈ st.discovered
    · -- already visited, so finished
      rw [dfsVisitor, if_pos hd]
      exact ⟨I, by_contra fun hf => hu ((I.gray u).2 ⟨hd, hf⟩), subset_rfl⟩
    · rw [dfsVisitor_succ_of_not_mem hd]
      have hreach' : ∀ y ∈ P ++ [u], g.Reach y u := fun y hy => by
        rcases List.mem_append.1 hy with hy | hy
        exacts [hreach y hy, List.mem_singleton.1 hy ▸ .refl _]
      have hloop := foldlM_post (NeighborInv g P u st) (g.neighbors u) [] _
        ⟨I.discover hd, by simp, fun _ h => h⟩ fun done v st' hv L =>
          dfsNeighbor_post (fun st'' I'' hv'' => dfsVisitor_spec fuel (P ++ [u]) v st''
            (by simp only [List.length_append, List.length_singleton]; omega) I''
            (fun h => hv'' ((I''.gray v).1 h).1) fun y hy => (hreach' y hy).tail hv)
            hreach' hv L
      cases hr : (g.neighbors u).foldlM
          (dfsNeighbor backEdgeVisitor (dfsVisitor g backEdgeVisitor fuel) u)
          { st with discovered := insert u st.discovered, time := st.time + 1 } with
      | error e => rw [hr] at hloop; exact hloop
      | ok st' =>
        rw [hr] at hloop
        obtain ⟨I', hdone, hsub⟩ := hloop
        exact ⟨I'.finish fun v hv => hdone v (by simpa using hv), Finset.mem_insert_self u _,
          hsub.trans (Finset.subset_insert u _)⟩

end visitor

/-! ## `depth_first_search` and `is_cyclic_directed` -/

/-- The search from every node breaks exactly on a cycle: it ends in a cycle when the visitor
breaks it, and in an acyclic graph when it goes through. -/
theorem depthFirstSearch_backEdge (g : Graph n) :
    ExceptPost (¬ g.Acyclic) (fun _ => g.Acyclic)
      (depthFirstSearch g g.nodeIdentifiers backEdgeVisitor) := by
  let Q := fun (done : List (Fin n)) st => DfsInv g [] st ∧ ∀ v ∈ done, v ∈ st.finished
  have hstep : ∀ done v st, v ∈ g.nodeIdentifiers → Q done st →
      ExceptPost (¬ g.Acyclic) (Q (done ++ [v])) (dfsVisitor g backEdgeVisitor (n + 1) v st) :=
    fun done v st _ ⟨I, hdone⟩ => by
      have hv := dfsVisitor_spec (n + 1) [] v st (by simp) I (List.not_mem_nil v) (by simp)
      cases hr : dfsVisitor g backEdgeVisitor (n + 1) v st with
      | error e => rw [hr] at hv; exact hv
      | ok st' =>
        rw [hr] at hv
        obtain ⟨I', hv', hsub⟩ := hv
        exact ⟨I', List.forall_mem_append.2 ⟨fun w hw => hsub (hdone w hw),
          List.forall_mem_singleton.2 hv'⟩⟩
  have h := foldlM_post Q g.nodeIdentifiers [] ⟨∅, ∅, 0⟩ ⟨DfsInv.init, by simp⟩ hstep
  unfold depthFirstSearch
  cases hr : g.nodeIdentifiers.foldlM (fun st start => dfsVisitor g backEdgeVisitor (n + 1) start st)
    ⟨∅, ∅, 0⟩ with
  | error e => rw [hr] at h; exact h
  | ok st =>
    rw [hr] at h
    exact h.1.acyclic fun v => h.2 v (by simpa using g.mem_nodeIdentifiers v)

/-- `is_cyclic_directed` answers whether `g` has a directed cycle. -/
theorem isCyclicDirected_iff (g : Graph n) : isCyclicDirected g = true ↔ ¬ g.Acyclic := by
  have h := depthFirstSearch_backEdge g
  unfold isCyclicDirected
  cases hr : depthFirstSearch g g.nodeIdentifiers backEdgeVisitor with
  | error e => rw [hr] at h; simpa using h
  | ok _ => rw [hr] at h; simpa using h

/-- **`is_cyclic_directed` finds the directed cycles.**  For every graph it returns `true`
exactly when `g` has a directed cycle (a self-loop is one, and so is an edge of an undirected
graph, read both ways), that is, exactly when `toposort(g, None)` returns `Err`. -/
theorem isCyclicDirected_spec (g : Graph n) :
    (isCyclicDirected g = true ↔ ¬ g.Acyclic) ∧
      (isCyclicDirected g = true ↔ ∃ c, toposort g none = .error c) := by
  refine ⟨isCyclicDirected_iff g, (isCyclicDirected_iff g).trans ?_⟩
  rcases toposort_result g with ⟨ha, order, h, -⟩ | ⟨hna, c, h⟩
  · simp [ha, h]
  · exact ⟨fun _ => ⟨c, h⟩, fun _ => hna⟩

end Petgraph
