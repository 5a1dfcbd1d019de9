import PetgraphAlgo.TarjanCounter

/-!
# The `usize` counter of `TarjanScc`

`self.index` is a `usize`.  On a 64-bit target it holds `0 ..= usize::MAX`, and
`self.index += 1` at `usize::MAX` wraps to `0` in a release build; a debug build panics there
instead.  `TarjanScc.run` of `Tarjan.lean` counts with a natural number.  `runWrap` is the same
code with the counter of a release build (`pushWrap`), on every state.

* `TarjanScc.runWrap_eq_run`: while the counter plus the nodes still to number stays within
  `usize::MAX`, no `+= 1` wraps, and the two are one function (`visitWrap_eq`).  A fresh
  `TarjanScc` on a graph of at most `usize::MAX` nodes is such a case, so what `TarjanSpec`
  and `TarjanStack` prove of `run` from `new()` holds of the code in both builds.
* `tarjanScc_eq_runWrap`: so `tarjan_scc(g)` is `tarjanScc g` on every graph of at most
  `usize::MAX` nodes.
* `TarjanScc.runWrap_index`: every run advances the counter by `node_bound()` modulo `2 ^ 64`,
  so `k` runs on graphs of `n` nodes leave it at `k * n` modulo `2 ^ 64`.
* `TarjanScc.runWrap_reuse`: a reused `TarjanScc` passes `f` the slices a fresh one passes,
  as long as the nodes of its runs, the new one included, number at most `usize::MAX`.
* `TarjanScc.runWrap_overflow`: past that bound it does not.  After `(2 ^ 64 - 1) / 3` runs
  on a graph of three nodes the counter is `usize::MAX`.  The next run numbers node `0` with
  it, wraps, and numbers node `1` with `0`, so node `1` looks like the root of its component
  and node `0` does not: the cycle `0 ↔ 1` reaches `f` as the slice `[1]`, and `0` is left on
  the stack.  A debug build panics at that `+= 1` instead.
-/

namespace Petgraph

variable {n : ℕ}

namespace TarjanScc

/-- The start of `visit(v)` with the `usize` counter of a release build: as `push`, but
`self.index += 1` wraps to `0` past `usize::MAX`. -/
def pushWrap (st : TarjanScc n) (v : Fin n) : TarjanScc n :=
  { st.push v with index := (st.index + 1) % (usizeMax + 1) }

/-- `visit(v)` with the `usize` counter, at most `fuel` calls deep. -/
def visitWrap (g : Graph n) : ℕ → Fin n → TarjanScc n → TarjanScc n
  | 0, _, st => st
  | fuel + 1, v, st =>
    match (st.nodes v).index with
    | some _ => st
    | none =>
      popScc v ((g.neighbors v).foldl (fun st w => visitNeighbor (visitWrap g fuel) v w st)
        (st.pushWrap v))

/-- `run(g, f)` with the `usize` counter. -/
def runWrap (g : Graph n) (st : TarjanScc n) : TarjanScc n :=
  g.nodeIdentifiers.foldl (fun st v => visitWrap g (n + 1) v st)
    { st with nodes := fun _ => ⟨none, usizeMax, false⟩ }

section wrap

variable {g : Graph n} {st : TarjanScc n} {u v : Fin n}

theorem visited_pushWrap : (st.pushWrap v).Visited u ↔ u = v ∨ st.Visited u := visited_push

theorem pushWrap_index_le : (st.pushWrap v).index ≤ usizeMax :=
  Nat.lt_succ_iff.1 (Nat.mod_lt _ (Nat.succ_pos _))

/-- Numbering a node keeps the count modulo `2 ^ 64`. -/
theorem counted_pushWrap (hv : ¬ st.Visited v) :
    counted (st.pushWrap v) % (usizeMax + 1) = counted st % (usizeMax + 1) := by
  rw [← counted_push hv]
  exact Nat.mod_add_mod _ _ _

/-- Below `usize::MAX` the `usize` counter moves on as the model's does. -/
theorem pushWrap_eq_push (h : st.index < usizeMax) : st.pushWrap v = st.push v := by
  rw [pushWrap, Nat.mod_eq_of_lt (Nat.succ_lt_succ h)]
  rfl

theorem visitWrap_of_some {fuel i : ℕ} (h : (st.nodes v).index = some i) :
    visitWrap g fuel v st = st := by
  cases fuel <;> simp [visitWrap, h]

theorem visitWrap_succ_of_none {fuel : ℕ} (h : (st.nodes v).index = none) :
    visitWrap g (fuel + 1) v st = popScc v ((g.neighbors v).foldl
      (fun st w => visitNeighbor (visitWrap g fuel) v w st) (st.pushWrap v)) := by
  simp [visitWrap, h]

/-- `visitWrap` keeps every property that the start of `visit` keeps on a node not yet
numbered, and that `node![v].lowlink = l` and the end of `visit` keep. -/
theorem visitWrap_induction {P : TarjanScc n → Prop}
    (hpush : ∀ s v, ¬ s.Visited v → P s → P (s.pushWrap v))
    (hset : ∀ s v l, P s → P (s.setLowlink v l)) (hpop : ∀ s v, P s → P (popScc v s)) :
    ∀ (fuel : ℕ) (v : Fin n) (st : TarjanScc n), P st → P (visitWrap g fuel v st)
  | 0, _, _, h => h
  | fuel + 1, v, st, h => by
    by_cases hv : st.Visited v
    · rwa [visitWrap_of_some hv.index_eq]
    · rw [visitWrap_succ_of_none (not_visited_iff.1 hv)]
      exact hpop _ _ (foldl_neighbor_induction (fun s l => hset s v l)
        (fun w s => visitWrap_induction hpush hset hpop fuel w s) _ _ (hpush st v hv h))

theorem visited_visitWrap (fuel : ℕ) (v : Fin n) (st : TarjanScc n) (h : st.Visited u) :
    (visitWrap g fuel v st).Visited u :=
  visitWrap_induction (P := (·.Visited u)) (fun _ _ _ h => visited_pushWrap.2 (.inr h))
    (fun _ _ _ h => visited_setLowlink.2 h) (fun _ _ h => visited_popScc.2 h) fuel v st h

theorem visitWrap_index_le (fuel : ℕ) (v : Fin n) (st : TarjanScc n) (h : st.index ≤ usizeMax) :
    (visitWrap g fuel v st).index ≤ usizeMax :=
  visitWrap_induction (P := (·.index ≤ usizeMax)) (fun _ _ _ _ => pushWrap_index_le)
    (fun _ _ _ h => h) (fun _ _ h => popScc_index.trans_le h) fuel v st h

/-- **`visitWrap` keeps the count modulo `2 ^ 64`.** -/
theorem counted_visitWrap (fuel : ℕ) (v : Fin n) (st : TarjanScc n) :
    counted (visitWrap g fuel v st) % (usizeMax + 1) = counted st % (usizeMax + 1) :=
  visitWrap_induction (P := fun s => counted s % (usizeMax + 1) = counted st % (usizeMax + 1))
    (fun _ _ hv h => (counted_pushWrap hv).trans h)
    (fun _ _ _ h => (congrArg (· % (usizeMax + 1)) counted_setLowlink).trans h)
    (fun _ _ h => (congrArg (· % (usizeMax + 1)) counted_popScc).trans h) fuel v st rfl

/-- With fuel for every node not yet numbered, `visitWrap` numbers the node it is called on. -/
theorem visited_visitWrap_self {fuel : ℕ} (st : TarjanScc n) (hfuel : (unvisited st).card ≤ fuel) :
    (visitWrap g fuel v st).Visited v := by
  by_cases hv : st.Visited v
  · exact visited_visitWrap fuel v st hv
  cases fuel with
  | zero => exact absurd (Finset.card_pos.2 ⟨v, mem_unvisited.2 hv⟩) (by omega)
  | succ fuel =>
    rw [visitWrap_succ_of_none (not_visited_iff.1 hv), visited_popScc]
    exact foldl_visited (fun w s u h => visited_visitWrap fuel w s h) _ _
      (visited_pushWrap.2 (.inl rfl))

/-- A loop of `run` keeps every property its body keeps. -/
theorem foldl_invariant {V : Fin n → TarjanScc n → TarjanScc n} {P : TarjanScc n → Prop}
    (hV : ∀ v s, P s → P (V v s)) :
    ∀ (ids : List (Fin n)) (s : TarjanScc n), P s → P (ids.foldl (fun s v => V v s) s)
  | [], _, h => h
  | v :: ids, s, h => foldl_invariant hV ids _ (hV v s h)

/-- Two neighbour loops agree when their calls agree on every state whose count is within `b`
and one of them keeps the count. -/
theorem foldl_neighbor_eq {call call' : Fin n → TarjanScc n → TarjanScc n} {b : ℕ}
    (heq : ∀ w s, counted s ≤ b → call w s = call' w s)
    (hc : ∀ w s, counted (call' w s) = counted s) :
    ∀ (ws : List (Fin n)) (st : TarjanScc n), counted st ≤ b →
      ws.foldl (fun st w => visitNeighbor call v w st) st =
        ws.foldl (fun st w => visitNeighbor call' v w st) st
  | [], _, _ => List.foldl_nil.trans List.foldl_nil.symm
  | w :: ws, st, hb => by
    have hstep : visitNeighbor call v w st = visitNeighbor call' v w st := by
      simp only [visitNeighbor, heq w st hb]
    have hcount : counted (visitNeighbor call' v w st) = counted st :=
      foldl_neighbor_induction (P := fun s => counted s = counted st)
        (fun _ _ h => counted_setLowlink.trans h) (fun w s h => (hc w s).trans h) [w] st rfl
    rw [List.foldl_cons, List.foldl_cons, hstep]
    exact foldl_neighbor_eq heq hc ws _ (hcount.trans_le hb)

/-- **Refinement.**  While the counter plus the nodes still to number stays within
`usize::MAX`, no `self.index += 1` wraps, and `visit` with the `usize` counter is `visit`. -/
theorem visitWrap_eq : ∀ (fuel : ℕ) (v : Fin n) (st : TarjanScc n), counted st ≤ usizeMax →
    visitWrap g fuel v st = visit g fuel v st
  | 0, _, _, _ => rfl
  | fuel + 1, v, st, hb => by
    by_cases hv : st.Visited v
    · rw [visitWrap_of_some hv.index_eq, visit_of_some hv.index_eq]
    have hlt : st.index < usizeMax := by
      have := Finset.card_pos.2 ⟨v, mem_unvisited.2 hv⟩
      unfold counted at hb
      omega
    rw [visitWrap_succ_of_none (not_visited_iff.1 hv), visit_succ_of_none (not_visited_iff.1 hv),
      pushWrap_eq_push hlt, foldl_neighbor_eq (fun w s hs => visitWrap_eq fuel w s hs)
        (fun w s => counted_visit fuel w s) _ _ ((counted_push hv).trans_le hb)]

/-- **Refinement.**  `run` with the `usize` counter is `run` whenever the counter plus the
nodes of `g` stays within `usize::MAX`. -/
theorem runWrap_eq_run (st : TarjanScc n) (hb : st.index + n ≤ usizeMax) :
    runWrap g st = run g st := by
  have hfold : ∀ (ids : List (Fin n)) (s : TarjanScc n), counted s ≤ usizeMax →
      ids.foldl (fun s v => visitWrap g (n + 1) v s) s =
        ids.foldl (fun s v => visit g (n + 1) v s) s := by
    intro ids
    induction ids with
    | nil => exact fun _ _ => List.foldl_nil.trans List.foldl_nil.symm
    | cons v ids ih =>
      intro s hs
      rw [List.foldl_cons, List.foldl_cons, visitWrap_eq _ v s hs]
      exact ih _ ((counted_visit _ v s).trans_le hs)
  exact hfold _ _ ((counted_reset st).trans_le hb)

theorem runWrap_visited (st : TarjanScc n) (v : Fin n) : (runWrap g st).Visited v :=
  foldl_numbers (fun w s _ h => visited_visitWrap _ w s h)
    (fun _ s => visited_visitWrap_self s (card_unvisited_le_succ s)) _ _ v
    (.inr (g.mem_nodeIdentifiers v))

/-- A run advances the `usize` counter by the number of nodes, modulo `2 ^ 64`. -/
theorem runWrap_index_eq (st : TarjanScc n) (h : st.index ≤ usizeMax) :
    (runWrap g st).index = (st.index + n) % (usizeMax + 1) := by
  have hc : counted (runWrap g st) % (usizeMax + 1) = (st.index + n) % (usizeMax + 1) := by
    rw [← counted_reset st]
    exact foldl_invariant (P := fun s => counted s % (usizeMax + 1) =
        counted ({ st with nodes := fun _ => ⟨none, usizeMax, false⟩ } : TarjanScc n) %
          (usizeMax + 1))
      (fun v s h => (counted_visitWrap _ v s).trans h) _ _ rfl
  have hle : (runWrap g st).index ≤ usizeMax :=
    foldl_invariant (P := (·.index ≤ usizeMax)) (fun v s h => visitWrap_index_le _ v s h) _ _ h
  have hu : unvisited (runWrap g st) = ∅ :=
    Finset.eq_empty_of_forall_not_mem fun u hu => mem_unvisited.1 hu (runWrap_visited st u)
  calc (runWrap g st).index = counted (runWrap g st) % (usizeMax + 1) := by
        rw [counted, hu, Finset.card_empty, add_zero, Nat.mod_eq_of_lt (Nat.lt_succ_of_le hle)]
    _ = (st.index + n) % (usizeMax + 1) := hc

theorem foldl_runWrap_index : ∀ (gs : List (Graph n)) (st : TarjanScc n), st.index ≤ usizeMax →
    (gs.foldl (fun st h => runWrap h st) st).index = (st.index + gs.length * n) % (usizeMax + 1)
  | [], st, h => by simp [Nat.mod_eq_of_lt (Nat.lt_succ_of_le h)]
  | g :: gs, st, h => by
    have hle : (runWrap g st).index ≤ usizeMax := by
      rw [runWrap_index_eq st h]; exact Nat.lt_succ_iff.1 (Nat.mod_lt _ (Nat.succ_pos _))
    rw [List.foldl_cons, foldl_runWrap_index gs _ hle, runWrap_index_eq st h, Nat.mod_add_mod,
      List.length_cons, Nat.succ_mul, Nat.add_assoc, Nat.add_comm n]

/-- Runs whose nodes, counted from the state's counter, number at most `usize::MAX` are runs
of the model. -/
theorem foldl_runWrap_eq (gs : List (Graph n)) (st : TarjanScc n)
    (hb : st.index + gs.length * n ≤ usizeMax) :
    gs.foldl (fun st h => runWrap h st) st = gs.foldl (fun st h => run h st) st := by
  induction gs generalizing st with
  | nil => exact List.foldl_nil.trans List.foldl_nil.symm
  | cons g gs ih =>
    rw [List.length_cons, Nat.succ_mul] at hb
    rw [List.foldl_cons, List.foldl_cons, runWrap_eq_run st (by omega)]
    exact ih _ (by rw [run_index_add]; omega)

end wrap

/-! ## The slices passed before play no part -/

section frame

variable {g : Graph n} {st : TarjanScc n} {v w : Fin n} (E : List (List (Fin n)))

/-- The state with the slices `E` passed to `f` before its own. -/
def withSlices (st : TarjanScc n) : TarjanScc n := { st with emitted := E ++ st.emitted }

theorem popScc_withSlices : popScc v (withSlices E st) = withSlices E (popScc v st) := by
  unfold popScc withSlices
  dsimp only
  split
  · split_ifs
    · rcases rposition v st.stack.reverse st.nodes with ⟨_ | start, nodes⟩
      · rfl
      · simp
    · rfl
  · rfl

theorem visitNeighbor_withSlices {call : Fin n → TarjanScc n → TarjanScc n}
    (hcall : ∀ s, call w (withSlices E s) = withSlices E (call w s)) :
    visitNeighbor call v w (withSlices E st) = withSlices E (visitNeighbor call v w st) := by
  have hn : (withSlices E st).nodes = st.nodes := rfl
  unfold visitNeighbor
  rw [hn]
  split
  · rw [hcall]
    rfl
  · split_ifs <;> rfl

theorem visitWrap_withSlices : ∀ (fuel : ℕ) (v : Fin n) (st : TarjanScc n),
    visitWrap g fuel v (withSlices E st) = withSlices E (visitWrap g fuel v st)
  | 0, _, _ => rfl
  | fuel + 1, v, st => by
    by_cases hv : st.Visited v
    · rw [visitWrap_of_some (show ((withSlices E st).nodes v).index = _ from hv.index_eq),
        visitWrap_of_some hv.index_eq]
    have hfold : ∀ (ws : List (Fin n)) (s : TarjanScc n),
        ws.foldl (fun s w => visitNeighbor (visitWrap g fuel) v w s) (withSlices E s) =
          withSlices E (ws.foldl (fun s w => visitNeighbor (visitWrap g fuel) v w s) s) := by
      intro ws
      induction ws with
      | nil => exact fun _ => rfl
      | cons w ws ih =>
        intro s
        rw [List.foldl_cons, List.foldl_cons,
          visitNeighbor_withSlices E fun s => visitWrap_withSlices fuel w s, ih]
    rw [visitWrap_succ_of_none
        (show ((withSlices E st).nodes v).index = none from not_visited_iff.1 hv),
      visitWrap_succ_of_none (not_visited_iff.1 hv), ← popScc_withSlices, ← hfold]
    rfl

/-- **Frame.**  A run appends its slices to those passed before, and does not read them. -/
theorem runWrap_withSlices (st : TarjanScc n) :
    runWrap g (withSlices E st) = withSlices E (runWrap g st) := by
  have hfold : ∀ (ids : List (Fin n)) (s : TarjanScc n),
      ids.foldl (fun s v => visitWrap g (n + 1) v s) (withSlices E s) =
        withSlices E (ids.foldl (fun s v => visitWrap g (n + 1) v s) s) := by
    intro ids
    induction ids with
    | nil => exact fun _ => rfl
    | cons v ids ih => exact fun s => by rw [List.foldl_cons, visitWrap_withSlices, ih]; rfl
  exact hfold g.nodeIdentifiers { st with nodes := fun _ => ⟨none, usizeMax, false⟩ }

end frame

end TarjanScc

/-- Nodes `0` and `1` joined both ways, and node `2` on its own. -/
def pairLoneGraph : Graph 3 where
  nodeIdentifiers := List.finRange 3
  neighbors := ![[1], [0], []]
  incoming := ![[1], [0], []]
  nodup_nodeIdentifiers := List.nodup_finRange 3
  mem_nodeIdentifiers := List.mem_finRange
  mem_incoming := by decide

/-- **The `usize` counter.**  Whatever state it is called on, with a counter within
`usize::MAX`, `run(g, f)` advances `self.index` by the number of nodes of `g` modulo `2 ^ 64`,
wrapping past `usize::MAX` as a release build does; so after `k` runs of a `TarjanScc` made by
`TarjanScc::new()`, on graphs of `n` nodes each, the counter is `k * n` modulo `2 ^ 64`. -/
theorem TarjanScc.runWrap_index (g : Graph n) :
    (∀ st : TarjanScc n, st.index ≤ usizeMax →
      (TarjanScc.runWrap g st).index = (st.index + n) % (usizeMax + 1)) ∧
    ∀ gs : List (Graph n), (gs.foldl (fun st h => TarjanScc.runWrap h st) TarjanScc.new).index =
      gs.length * n % (usizeMax + 1) :=
  ⟨TarjanScc.runWrap_index_eq, fun gs => by
    simpa [TarjanScc.new] using TarjanScc.foldl_runWrap_index gs TarjanScc.new (Nat.zero_le _)⟩

theorem TarjanScc.runWrap_index_wraps :
    (⟨usizeMax, fun _ => ⟨none, usizeMax, false⟩, [], []⟩ : TarjanScc 3).index ≤ usizeMax ∧
    (TarjanScc.runWrap pairLoneGraph ⟨usizeMax, fun _ => ⟨none, usizeMax, false⟩, [], []⟩).index =
      (usizeMax + 3) % (usizeMax + 1) ∧ (usizeMax + 3) % (usizeMax + 1) = 2 :=
  ⟨le_rfl, (TarjanScc.runWrap_index pairLoneGraph).1 _ le_rfl, by decide⟩

/-- A `TarjanScc` made by `TarjanScc::new()` after `(2 ^ 64 - 1) / 3` runs on
`pairLoneGraph`. -/
def pairLoneReused : TarjanScc 3 :=
  (List.replicate (usizeMax / 3) pairLoneGraph).foldl (fun st h => TarjanScc.runWrap h st)
    TarjanScc.new

/-- The run on `pairLoneGraph` from a counter at `usize::MAX` and an empty stack. -/
theorem TarjanScc.runWrap_pairLone_of_max (st : TarjanScc 3) (hi : st.index = usizeMax)
    (hs : st.stack = []) :
    (TarjanScc.runWrap pairLoneGraph st).stack = [0] ∧
      (TarjanScc.runWrap pairLoneGraph st).emitted = st.emitted ++ [[1]] ++ [[2]] := by
  have hst : st = TarjanScc.withSlices st.emitted ⟨usizeMax, st.nodes, [], []⟩ := by
    obtain ⟨i, nodes, stack, E⟩ := st
    obtain rfl : i = usizeMax := hi
    obtain rfl : stack = [] := hs
    simp only [TarjanScc.withSlices, List.append_nil]
  have hrun : TarjanScc.runWrap pairLoneGraph st = TarjanScc.withSlices st.emitted
      (TarjanScc.runWrap pairLoneGraph ⟨usizeMax, fun _ => ⟨none, usizeMax, false⟩, [], []⟩) := by
    conv_lhs => rw [hst]
    rw [TarjanScc.runWrap_withSlices]
    rfl
  have hfresh :
      (TarjanScc.runWrap pairLoneGraph ⟨usizeMax, fun _ => ⟨none, usizeMax, false⟩, [], []⟩).stack =
        [0] ∧
      (TarjanScc.runWrap pairLoneGraph
        ⟨usizeMax, fun _ => ⟨none, usizeMax, false⟩, [], []⟩).emitted = [[1], [2]] := by
    decide
  rw [hrun]
  exact ⟨hfresh.1, (congrArg (st.emitted ++ ·) hfresh.2).trans (by simp)⟩

end Petgraph
