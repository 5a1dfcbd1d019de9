import PetgraphAlgo.TarjanReuse

/-!
# The discovery counter of `TarjanScc`

`visit` hands out `self.index` as the number of the node it starts on and then adds one, and
it starts only on nodes with no number yet.  So the counter plus the number of nodes not yet
numbered (`counted`) stays the same through every operation of `visit` (`counted_visit`).
`run` clears the records, so all `node_bound()` nodes start unnumbered, and it numbers every
one of them (`run_visited`): whatever state it is called on, it advances the counter by
exactly `node_bound()` (`run_index_add`), and `run` never resets it, so `k` runs on graphs of
`n` nodes add `k * n` (`foldl_run_index`).

These are facts of the model's counter, a natural number.  The code's counter is a `usize`;
`TarjanUsize` uses them to show where the two agree and what the `usize` counter does past
`usize::MAX`.
-/

namespace Petgraph

variable {n : ℕ}

namespace TarjanScc

variable {g : Graph n} {st : TarjanScc n} {u v w : Fin n} {l : ℕ}

/-- The counter plus the nodes not yet numbered. -/
def counted (st : TarjanScc n) : ℕ := st.index + (unvisited st).card

theorem counted_setLowlink : counted (st.setLowlink v l) = counted st := by
  have : unvisited (st.setLowlink v l) = unvisited st := by ext u; simp
  rw [counted, counted, this, setLowlink_index]

theorem popScc_index : (popScc v st).index = st.index := by
  unfold popScc
  split
  · split_ifs
    · split <;> rfl
    · rfl
  · rfl

theorem counted_popScc : counted (popScc v st) = counted st := by
  have : unvisited (popScc v st) = unvisited st := by ext u; simp
  rw [counted, counted, this, popScc_index]

/-- `push` numbers one node with the counter and moves the counter on by one. -/
theorem counted_push (hv : ¬ st.Visited v) : counted (st.push v) = counted st := by
  have hu : unvisited (st.push v) = (unvisited st).erase v := by
    ext u; simp [visited_push, not_or, and_comm]
  have hpos := Finset.card_pos.2 ⟨v, mem_unvisited.2 hv⟩
  rw [counted, counted, hu, Finset.card_erase_of_mem (mem_unvisited.2 hv), push_index]
  omega

/-- The neighbour loop keeps every property that `node![v].lowlink = l` keeps and that the
calls it makes keep. -/
theorem foldl_neighbor_induction {P : TarjanScc n → Prop} {call : Fin n → TarjanScc n → TarjanScc n}
    (hset : ∀ s l, P s → P (s.setLowlink v l)) (hcall : ∀ w s, P s → P (call w s)) :
    ∀ (ws : List (Fin n)) (st : TarjanScc n), P st →
      P (ws.foldl (fun st w => visitNeighbor call v w st) st)
  | [], _, h => h
  | w :: ws, st, h => foldl_neighbor_induction hset hcall ws _ <| by
    show P (visitNeighbor call v w st)
    unfold visitNeighbor
    split
    · exact hset _ _ (hcall w st h)
    · split_ifs
      · exact hset _ _ h
      · exact h

/-- **`visit` keeps the count.**  Every node `visit` numbers takes the counter's value, which
then moves on by one. -/
theorem counted_visit : ∀ (fuel : ℕ) (v : Fin n) (st : TarjanScc n),
    counted (visit g fuel v st) = counted st
  | 0, _, _ => rfl
  | fuel + 1, v, st => by
    by_cases hv : st.Visited v
    · rw [visit_of_some hv.index_eq]
    · rw [visit_succ_of_none (not_visited_iff.1 hv), counted_popScc, ← counted_push hv]
      exact foldl_neighbor_induction (P := fun s => counted s = counted (st.push v))
        (fun _ _ h => counted_setLowlink.trans h)
        (fun w s h => (counted_visit fuel w s).trans h) _ _ rfl

/-- A loop over `ids` whose body keeps every numbered node numbered, and numbers the node it is
called on, numbers every node of `ids`. -/
theorem foldl_numbers {V : Fin n → TarjanScc n → TarjanScc n}
    (hkeep : ∀ w s u, s.Visited u → (V w s).Visited u) (hself : ∀ w s, (V w s).Visited w) :
    ∀ (ids : List (Fin n)) (st : TarjanScc n) (v : Fin n), st.Visited v ∨ v ∈ ids →
      (ids.foldl (fun st v => V v st) st).Visited v
  | [], _, _, h => h.resolve_right (List.not_mem_nil _)
  | w :: ids, st, v, h => by
    refine foldl_numbers hkeep hself ids _ v ?_
    rcases h with h | h
    · exact .inl (hkeep w st v h)
    · rcases List.mem_cons.1 h with rfl | h
      exacts [.inl (hself _ st), .inr h]

/-- A state has at most `n` nodes to number. -/
theorem card_unvisited_le_succ (st : TarjanScc n) : (unvisited st).card ≤ n + 1 :=
  ((Finset.card_le_univ _).trans_eq (Fintype.card_fin n)).trans (Nat.le_succ n)

theorem run_visited (st : TarjanScc n) (v : Fin n) : (run g st).Visited v := by
  refine foldl_numbers (fun w s u h => visited_visit _ w s u h) (fun w s => ?_) _ _ v
    (.inr (g.mem_nodeIdentifiers v))
  by_cases hw : s.Visited w
  exacts [visited_visit _ w s w hw, visited_visit_self hw (card_unvisited_le_succ s)]

/-- `run` starts from records that number no node. -/
theorem counted_reset (st : TarjanScc n) :
    counted ({ st with nodes := fun _ => ⟨none, usizeMax, false⟩ } : TarjanScc n) =
      st.index + n := by
  have hfresh :
      unvisited ({ st with nodes := fun _ => ⟨none, usizeMax, false⟩ } : TarjanScc n) =
        Finset.univ := by
    ext u; simp [Visited]
  rw [counted, hfresh, Finset.card_univ, Fintype.card_fin]

theorem counted_run (st : TarjanScc n) : counted (run g st) = st.index + n := by
  have hfold : ∀ (ids : List (Fin n)) (s : TarjanScc n),
      counted (ids.foldl (fun s v => visit g (n + 1) v s) s) = counted s := fun ids =>
    ids.rec (fun _ => rfl) fun v _ ih s => (ih _).trans (counted_visit _ v s)
  rw [run, hfold, counted_reset]

/-- **Run.**  `run` advances the counter by exactly `node_bound()`. -/
theorem run_index_add (st : TarjanScc n) : (run g st).index = st.index + n := by
  have hu : unvisited (run g st) = ∅ :=
    Finset.eq_empty_of_forall_not_mem fun u hu => mem_unvisited.1 hu (run_visited st u)
  simpa [counted, hu] using counted_run (g := g) st

theorem foldl_run_index : ∀ (gs : List (Graph n)) (st : TarjanScc n),
    (gs.foldl (fun st h => run h st) st).index = st.index + gs.length * n
  | [], _ => by simp
  | h :: gs, st => by
    rw [List.foldl_cons, foldl_run_index gs, run_index_add, List.length_cons, Nat.succ_mul]
    omega

end TarjanScc

end Petgraph
