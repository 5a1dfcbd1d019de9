import PetgraphAlgo.TarjanSpec

/-!
# Reusing a `TarjanScc`

`TarjanScc::run(g, f)` clears and refills the per-node records, but it keeps the discovery
counter `self.index` and the stack `self.stack` of the state it is called on.  A second run on
the same `TarjanScc` therefore numbers the nodes from where the first one stopped.

The numbers are only ever compared with one another (`lowlink == index`, and the `min` of
lowlinks and indices), so a run from a counter `k` and an empty stack makes exactly the
decisions of a run from `TarjanScc::new()`, with every number `k` higher
(`TarjanScc.shift`).  Each operation of `visit` commutes with the shift (`push_shift`,
`setLowlink_shift`, `popScc_shift`), and so does `visit` itself (`visit_shift`) as long as
its fuel covers the nodes not yet numbered, which `run` always grants.

* `TarjanScc.run_shift`: `run` from a state with an empty stack is `run` from `new()`,
  shifted by the state's counter;
* `TarjanScc.run_stack_nil`: `run` leaves the stack empty, so after any number of runs the
  stack is empty again.

With the model's counter, a natural number, a reused `TarjanScc` therefore passes `f` the
slices a fresh one passes.  The code's counter is a `usize`; `TarjanUsize` shows that this
holds of it only while the counter stays within `usize::MAX`.
-/

namespace Petgraph

variable {n : ℕ}

/-- The record of a node numbered `k` higher: once the node is numbered, its index and its
lowlink move up by `k`; the record of a node not yet numbered stays as it is. -/
def NodeData.shift (k : ℕ) (d : NodeData) : NodeData :=
  match d.index with
  | some i => ⟨some (i + k), d.lowlink + k, d.onStack⟩
  | none => d

theorem NodeData.shift_clear (k : ℕ) (d : NodeData) :
    ({ d with onStack := false } : NodeData).shift k = { d.shift k with onStack := false } := by
  obtain ⟨_ | i, l, b⟩ := d <;> rfl

namespace TarjanScc

/-- The state of a run numbered `k` higher, after the slices `E` of earlier runs. -/
def shift (k : ℕ) (E : List (List (Fin n))) (st : TarjanScc n) : TarjanScc n :=
  ⟨st.index + k, fun u => (st.nodes u).shift k, st.stack, E ++ st.emitted⟩

/-- The nodes not yet numbered. -/
def unvisited (st : TarjanScc n) : Finset (Fin n) :=
  Finset.univ.filter fun u => (st.nodes u).index = none

section shift

variable {k : ℕ} {E : List (List (Fin n))} {st : TarjanScc n} {u v : Fin n}

@[simp] theorem shift_index : (st.shift k E).index = st.index + k := rfl
@[simp] theorem shift_stack : (st.shift k E).stack = st.stack := rfl
@[simp] theorem shift_emitted : (st.shift k E).emitted = E ++ st.emitted := rfl

@[simp] theorem shift_nodes_index :
    ((st.shift k E).nodes u).index = (st.nodes u).index.map (· + k) := by
  show ((st.nodes u).shift k).index = _
  unfold NodeData.shift; split <;> simp_all

@[simp] theorem shift_nodes_onStack : ((st.shift k E).nodes u).onStack = (st.nodes u).onStack := by
  show ((st.nodes u).shift k).onStack = _
  unfold NodeData.shift; split <;> rfl

theorem shift_nodes_lowlink (h : st.Visited u) :
    ((st.shift k E).nodes u).lowlink = (st.nodes u).lowlink + k := by
  show ((st.nodes u).shift k).lowlink = _
  simp [NodeData.shift, h.index_eq]

@[simp] theorem visited_shift : (st.shift k E).Visited u ↔ st.Visited u := by
  simp [Visited]

@[simp] theorem mem_unvisited : u ∈ unvisited st ↔ ¬ st.Visited u := by
  simp [unvisited, not_visited_iff]

/-- Fewer nodes are left unnumbered once more are numbered. -/
theorem card_unvisited_le {st' : TarjanScc n} (h : ∀ u, st.Visited u → st'.Visited u) :
    (unvisited st').card ≤ (unvisited st).card :=
  Finset.card_le_card fun u => by simpa only [mem_unvisited] using mt (h u)

theorem push_shift : (st.shift k E).push v = (st.push v).shift k E := by
  simp only [push, shift, mk.injEq, Nat.add_right_comm, true_and, and_true]
  funext u
  by_cases h : u = v
  · subst h; simp [NodeData.shift]
  · simp [Function.update_noteq h]

theorem setLowlink_shift (hv : st.Visited v) (l : ℕ) :
    (st.shift k E).setLowlink v (l + k) = (st.setLowlink v l).shift k E := by
  simp only [setLowlink, shift, mk.injEq, and_true, true_and]
  funext u
  by_cases h : u = v
  · subst h; simp [NodeData.shift, hv.index_eq]
  · simp [Function.update_noteq h]

/-- `rposition` reads only the stack: it finds the same position, and clears the same flags. -/
theorem rposition_shift (ws : List (Fin n)) (nodes : Fin n → NodeData) :
    rposition v ws (fun u => (nodes u).shift k) =
      ((rposition v ws nodes).1, fun u => ((rposition v ws nodes).2 u).shift k) := by
  induction ws generalizing nodes with
  | nil => rfl
  | cons w ws ih =>
    have hupd : Function.update (fun u => (nodes u).shift k) w { (nodes w).shift k with onStack := false }
        = fun u => (Function.update nodes w { nodes w with onStack := false } u).shift k := by
      rw [← NodeData.shift_clear]
      exact (Function.comp_update nodes w _ (f := NodeData.shift k)).symm
    simp only [rposition, hupd]
    split_ifs
    · rfl
    · exact ih _

theorem popScc_shift : popScc v (st.shift k E) = (popScc v st).shift k E := by
  by_cases hv : st.Visited v
  · have hl := shift_nodes_lowlink (E := E) (k := k) hv
    simp only [popScc, shift_nodes_index, hv.index_eq, Option.map_some', hl, add_left_inj]
    split_ifs
    · rw [show (st.shift k E).nodes = fun u => (st.nodes u).shift k from rfl, shift_stack,
        rposition_shift]
      rcases rposition v st.stack.reverse st.nodes with ⟨_ | start, nodes⟩ <;> simp [shift]
    · rfl
  · simp [popScc, not_visited_iff.1 hv]

/-- One round of the neighbour loop commutes with the shift, if the recursive call does and
numbers the neighbour. -/
theorem visitNeighbor_shift {call : Fin n → TarjanScc n → TarjanScc n} {w : Fin n}
    (hv : st.Visited v)
    (hcall : ¬ st.Visited w → call w (st.shift k E) = (call w st).shift k E ∧
      (call w st).Visited v ∧ (call w st).Visited w) :
    visitNeighbor call v w (st.shift k E) = (visitNeighbor call v w st).shift k E := by
  by_cases hw : st.Visited w
  · simp only [visitNeighbor, shift_nodes_index, hw.index_eq, Option.map_some',
      shift_nodes_onStack]
    split_ifs
    · rw [shift_nodes_lowlink hv, Nat.add_min_add_right, setLowlink_shift hv]
    · rfl
  · obtain ⟨hc, hcv, hcw⟩ := hcall hw
    simp only [visitNeighbor, shift_nodes_index, not_visited_iff.1 hw, Option.map_none']
    rw [hc, shift_nodes_lowlink hcv, shift_nodes_lowlink hcw, Nat.add_min_add_right,
      setLowlink_shift hcv]

end shift

/-! ## `visit` numbers nodes and never un-numbers one -/

section numbering

variable {g : Graph n} {st : TarjanScc n} {u v w : Fin n}

theorem rposition_index (ws : List (Fin n)) (nodes : Fin n → NodeData) :
    ((rposition v ws nodes).2 u).index = (nodes u).index := by
  induction ws generalizing nodes with
  | nil => rfl
  | cons w ws ih =>
    have : (Function.update nodes w { nodes w with onStack := false } u).index = (nodes u).index := by
      by_cases h : u = w
      · subst h; simp
      · simp [Function.update_noteq h]
    simp only [rposition]
    split_ifs
    · exact this
    · rw [ih]; exact this

@[simp] theorem popScc_nodes_index : ((popScc v st).nodes u).index = (st.nodes u).index := by
  unfold popScc
  split
  · split_ifs
    · split
      · next heq =>
        have := rposition_index (v := v) (u := u) st.stack.reverse st.nodes
        rwa [heq] at this
      · rfl
    · rfl
  · rfl

@[simp] theorem visited_popScc : (popScc v st).Visited u ↔ st.Visited u := by
  simp [Visited]

theorem card_unvisited_push (hv : ¬ st.Visited v) :
    (unvisited (st.push v)).card < (unvisited st).card := by
  have : unvisited (st.push v) = (unvisited st).erase v := by
    ext u; simp [visited_push, not_or, and_comm]
  rw [this]
  exact Finset.card_erase_lt_of_mem (mem_unvisited.2 hv)

/-- One round of the neighbour loop keeps every numbered node numbered, if the call does. -/
theorem visitNeighbor_visited {call : Fin n → TarjanScc n → TarjanScc n}
    (hcall : ∀ s u, s.Visited u → (call w s).Visited u) (h : st.Visited u) :
    (visitNeighbor call v w st).Visited u := by
  unfold visitNeighbor
  split
  · exact visited_setLowlink.2 (hcall _ _ h)
  · split_ifs
    · exact visited_setLowlink.2 h
    · exact h

theorem foldl_visited {call : Fin n → TarjanScc n → TarjanScc n}
    (hcall : ∀ w s u, s.Visited u → (call w s).Visited u) :
    ∀ (ws : List (Fin n)) (st : TarjanScc n), st.Visited u →
      (ws.foldl (fun st w => visitNeighbor call v w st) st).Visited u
  | [], _, h => h
  | w :: ws, _, h => foldl_visited hcall ws _ (visitNeighbor_visited (hcall w) h)

/-- `visit` never un-numbers a node. -/
theorem visited_visit : ∀ (fuel : ℕ) (v : Fin n) (st : TarjanScc n) (u : Fin n),
    st.Visited u → (visit g fuel v st).Visited u
  | 0, _, _, _, h => h
  | fuel + 1, v, st, u, h => by
    by_cases hv : st.Visited v
    · rwa [visit_of_some hv.index_eq]
    · rw [visit_succ_of_none (not_visited_iff.1 hv), visited_popScc]
      exact foldl_visited (fun w s u h => visited_visit fuel w s u h) _ _ (visited_push.2 (.inr h))

/-- With fuel for every node not yet numbered, `visit(v)` numbers `v`. -/
theorem visited_visit_self {fuel : ℕ} (hv : ¬ st.Visited v) (hfuel : (unvisited st).card ≤ fuel) :
    (visit g fuel v st).Visited v := by
  cases fuel with
  | zero => exact absurd (Finset.card_pos.2 ⟨v, mem_unvisited.2 hv⟩) (by omega)
  | succ fuel =>
    rw [visit_succ_of_none (not_visited_iff.1 hv), visited_popScc]
    exact foldl_visited (fun w s u h => visited_visit fuel w s u h) _ _ (visited_push.2 (.inl rfl))

end numbering

/-! ## Runs commute with the shift -/

section run

variable {g : Graph n}

/-- One round of the neighbour loop keeps every numbered node numbered. -/
theorem visitNeighbor_visit_visited {fuel : ℕ} {v w : Fin n} {st : TarjanScc n} {u : Fin n}
    (h : st.Visited u) : (visitNeighbor (visit g fuel) v w st).Visited u :=
  visitNeighbor_visited (fun s u h => visited_visit fuel w s u h) h

/-- The neighbour loop of `visit(v)` commutes with the shift, if the calls it makes do. -/
theorem foldl_neighbor_shift {k fuel : ℕ} {E : List (List (Fin n))} {v : Fin n}
    (hcall : ∀ w s, (unvisited s).card ≤ fuel →
      visit g fuel w (s.shift k E) = (visit g fuel w s).shift k E) :
    ∀ (ws : List (Fin n)) (s : TarjanScc n), s.Visited v → (unvisited s).card ≤ fuel →
      ws.foldl (fun s w => visitNeighbor (visit g fuel) v w s) (s.shift k E) =
        (ws.foldl (fun s w => visitNeighbor (visit g fuel) v w s) s).shift k E
  | [], _, _, _ => rfl
  | w :: ws, s, hs, hc => by
    rw [List.foldl_cons, List.foldl_cons, visitNeighbor_shift hs fun hw =>
      ⟨hcall w s hc, visited_visit fuel w s v hs, visited_visit_self hw hc⟩]
    exact foldl_neighbor_shift hcall ws _ (visitNeighbor_visit_visited hs)
      ((card_unvisited_le fun _ => visitNeighbor_visit_visited).trans hc)

/-- **`visit` commutes with the shift**, with fuel for every node not yet numbered. -/
theorem visit_shift (k : ℕ) (E : List (List (Fin n))) :
    ∀ (fuel : ℕ) (v : Fin n) (st : TarjanScc n), (unvisited st).card ≤ fuel →
      visit g fuel v (st.shift k E) = (visit g fuel v st).shift k E
  | 0, _, _, _ => rfl
  | fuel + 1, v, st, hfuel => by
    by_cases hv : st.Visited v
    · rw [visit_of_some hv.index_eq, visit_of_some (visited_shift.2 hv).index_eq]
    have hpush := card_unvisited_push hv
    rw [visit_succ_of_none (not_visited_iff.1 hv),
      visit_succ_of_none (by simpa [not_visited_iff] using hv), push_shift,
      foldl_neighbor_shift (visit_shift k E fuel) _ _ (visited_push.2 (.inl rfl)) (by omega),
      popScc_shift]

theorem foldl_visit_shift (k : ℕ) (E : List (List (Fin n))) :
    ∀ (ids : List (Fin n)) (st : TarjanScc n),
      ids.foldl (fun st v => visit g (n + 1) v st) (st.shift k E) =
        (ids.foldl (fun st v => visit g (n + 1) v st) st).shift k E
  | [], _ => rfl
  | v :: ids, st => by
    have hcard : (unvisited st).card ≤ n + 1 :=
      ((Finset.card_le_univ _).trans_eq (Fintype.card_fin n)).trans (Nat.le_succ n)
    rw [List.foldl_cons, List.foldl_cons, visit_shift k E (n + 1) v st hcard]
    exact foldl_visit_shift k E ids _

/-- `run` from a state with an empty stack is `run` from `new()`, numbered from the state's
counter and after the state's slices. -/
theorem run_shift (st : TarjanScc n) (hst : st.stack = []) :
    run g st = (run g new).shift st.index st.emitted := by
  have h₀ : ({ st with nodes := fun _ => ⟨none, usizeMax, false⟩ } : TarjanScc n) =
      ({ (new : TarjanScc n) with nodes := fun _ => ⟨none, usizeMax, false⟩ }).shift
        st.index st.emitted := by
    obtain ⟨i, nodes, stack, emitted⟩ := st
    subst hst
    simp [shift, new, NodeData.shift]
  rw [run, run, h₀, foldl_visit_shift]

/-- `run` empties the stack, from any state whose stack is empty. -/
theorem run_stack_nil (st : TarjanScc n) (hst : st.stack = []) : (run g st).stack = [] := by
  rw [run_shift st hst, shift_stack]
  exact (run_inv g).2.1

/-- Runs one after another from a state with an empty stack leave it empty. -/
theorem foldl_run_stack_nil : ∀ (gs : List (Graph n)) (st : TarjanScc n), st.stack = [] →
    (gs.foldl (fun st h => run h st) st).stack = []
  | [], _, hst => hst
  | _ :: gs, st, hst => foldl_run_stack_nil gs _ (run_stack_nil st hst)

end run

end TarjanScc

end Petgraph
