import PetgraphAlgo.TarjanReuse

/-!
# The stack discipline of `TarjanScc::run`

`visit(v)` ends with `self.stack.iter().rposition(..).unwrap()`, and `run` with
`debug_assert!(self.stack.is_empty())`.  Both rest on the discipline of the stack: the
`on_stack` flags mark exactly the nodes on it, which are numbered and appear once, and every
call under way has its node on it.

`visitTrace` and `runTrace` list the states a run passes through, each with the calls under
way in it; they follow `visit` and `run` step by step, and end in the state `run` returns
(`runTrace_getLast`).  Every state of a run from `TarjanScc::new()` meets `TarjanInv`
(`runTrace_inv`), from which the discipline follows (`TarjanInv.stackSound`,
`TarjanInv.rootFound`).  A run from a reused state is that run shifted
(`runTrace_shift`), and the discipline reads no number, so it holds there too.

* `run_stack_discipline`: on any graph, from any state with an empty stack, every state of
  `run` keeps the discipline, `rposition` finds every node whose call is under way (in
  particular `v` at the root test of `visit(v)`), with the slice from it to the top made of
  the nodes numbered since, and the stack is empty at the end.
-/

namespace Petgraph

variable {n : ℕ}

namespace TarjanScc

variable (g : Graph n)

/-! ## The states of a run -/

/-- The states of the neighbour loop of a call, with `Q` the calls under way, the last one
being `v`'s: for each neighbour `w`, the states of the recursive call `visit(w)` when `w` is
not numbered yet, then the state after the round. -/
def neighborsTrace (call : Fin n → TarjanScc n → TarjanScc n)
    (callTrace : Fin n → TarjanScc n → List (List (Fin n) × TarjanScc n)) (Q : List (Fin n))
    (v : Fin n) : List (Fin n) → TarjanScc n → List (List (Fin n) × TarjanScc n)
  | [], _ => []
  | w :: ws, st =>
    (match (st.nodes w).index with
      | none => callTrace w st
      | some _ => []) ++
      (Q, visitNeighbor call v w st) :: neighborsTrace call callTrace Q v ws (visitNeighbor call v w st)

/-- The states `visit(v)` passes through, called with the calls `P` under way, each with the
calls under way in it, outermost first: `v` numbered and pushed; the states of its neighbour
loop; the state the root test `lowlink == index` reads, with `v`'s call still under way; and
the state after the root test, with `v`'s call over.  A numbered `v` passes through none. -/
def visitTrace : ℕ → List (Fin n) → Fin n → TarjanScc n → List (List (Fin n) × TarjanScc n)
  | 0, _, _, _ => []
  | fuel + 1, P, v, st =>
    match (st.nodes v).index with
    | some _ => []
    | none =>
      (P ++ [v], st.push v) ::
        neighborsTrace (visit g fuel) (visitTrace fuel (P ++ [v])) (P ++ [v]) v (g.neighbors v)
          (st.push v) ++
        [(P ++ [v], (g.neighbors v).foldl (fun st w => visitNeighbor (visit g fuel) v w st) (st.push v)),
         (P, popScc v ((g.neighbors v).foldl (fun st w => visitNeighbor (visit g fuel) v w st)
          (st.push v)))]

/-- The states `run(g, f)` passes through: the records reset, then the states of `visit` on
each node of `node_identifiers()` in turn. -/
def runTrace (st : TarjanScc n) : List (List (Fin n) × TarjanScc n) :=
  ([], { st with nodes := fun _ => ⟨none, usizeMax, false⟩ }) ::
    loop g.nodeIdentifiers { st with nodes := fun _ => ⟨none, usizeMax, false⟩ }
where
  /-- The states of `visit` on each node of `ids` in turn, from `st`. -/
  loop : List (Fin n) → TarjanScc n → List (List (Fin n) × TarjanScc n)
    | [], _ => []
    | v :: vs, st => visitTrace g (n + 1) [] v st ++ loop vs (visit g (n + 1) v st)

variable {g}

section unfold

variable {fuel : ℕ} {P : List (Fin n)} {v : Fin n} {st : TarjanScc n}

theorem visitTrace_of_visited (h : st.Visited v) : visitTrace g fuel P v st = [] := by
  cases fuel <;> simp [visitTrace, h.index_eq]

theorem visitTrace_succ_of_not_visited (h : ¬ st.Visited v) :
    visitTrace g (fuel + 1) P v st =
      (P ++ [v], st.push v) ::
        neighborsTrace (visit g fuel) (visitTrace g fuel (P ++ [v])) (P ++ [v]) v (g.neighbors v)
          (st.push v) ++
        [(P ++ [v], (g.neighbors v).foldl (fun st w => visitNeighbor (visit g fuel) v w st) (st.push v)),
         (P, popScc v ((g.neighbors v).foldl (fun st w => visitNeighbor (visit g fuel) v w st)
          (st.push v)))] := by
  rw [visitTrace, not_visited_iff.1 h]

/-- The states of `visit(v)` end in the state `visit` returns. -/
theorem visitTrace_getLast (h : ¬ st.Visited v) :
    (visitTrace g (fuel + 1) P v st).getLast? = some (P, visit g (fuel + 1) v st) := by
  rw [visitTrace_succ_of_not_visited h, visit_succ_of_none (not_visited_iff.1 h)]
  simp [List.getLast?_cons, List.getLast?_append]

/-- The states of a run end in the state `run` returns. -/
theorem runTrace_getLast (st : TarjanScc n) : (runTrace g st).getLast? = some ([], run g st) := by
  suffices h : ∀ (ids : List (Fin n)) (st : TarjanScc n),
      (runTrace.loop g ids st).getLast?.getD ([], st) =
        ([], ids.foldl (fun st v => visit g (n + 1) v st) st) by
    rw [runTrace, List.getLast?_cons, h, run]
  intro ids
  induction ids with
  | nil => exact fun _ => rfl
  | cons v vs ih =>
    intro st
    rw [runTrace.loop, List.getLast?_append, List.foldl_cons, ← ih]
    by_cases hv : st.Visited v
    · rw [visitTrace_of_visited hv, visit_of_some hv.index_eq]
      cases (runTrace.loop g vs st).getLast? <;> rfl
    · rw [visitTrace_getLast hv]
      cases (runTrace.loop g vs _).getLast? <;> rfl

end unfold

/-! ## Every state of a fresh run meets the invariant -/

section fresh

/-- **The states of `visit(w)`** on a node not yet numbered, which every stack node reaches,
with fuel at least the number of nodes outside the calls under way, all meet the invariant
with the calls under way in them. -/
theorem visitTrace_inv : ∀ (fuel : ℕ) (P : List (Fin n)) (w : Fin n) (st : TarjanScc n),
    n ≤ fuel + P.length → TarjanInv g P st → ¬ st.Visited w → (∀ y ∈ st.stack, g.Reach y w) →
    ∀ p ∈ visitTrace g fuel P w st, TarjanInv g p.1 p.2
  | 0, _, _, _, _, _, _, _ => by simp [visitTrace]
  | fuel + 1, P, w, st, hfuel, I, hw, hreach => by
    have hlen : n ≤ fuel + (P ++ [w]).length := by
      simp only [List.length_append, List.length_singleton]; omega
    have hcall : ∀ u st', TarjanInv g (P ++ [w]) st' → ¬ st'.Visited u →
        (∀ y ∈ st'.stack, g.Reach y u) → VisitPost g (P ++ [w]) u st' (visit g fuel u st') :=
      fun u st' I' hu hr => visit_spec g fuel (P ++ [w]) u st' hlen I' hu hr
    -- the states of the neighbour loop, from any point of it
    have hloop : ∀ (ws W : List (Fin n)) (s : TarjanScc n), W ++ ws = g.neighbors w →
        LoopInv g P w st W s → ∀ p ∈ neighborsTrace (visit g fuel) (visitTrace g fuel (P ++ [w]))
          (P ++ [w]) w ws s, TarjanInv g p.1 p.2 := by
      intro ws
      induction ws with
      | nil => simp [neighborsTrace]
      | cons u ws ih =>
        intro W s hW L p hp
        have hu : g.Adj w u := by rw [Graph.Adj, ← hW]; simp
        have L' := L.step I hu (hcall u)
        simp only [neighborsTrace, List.mem_append, List.mem_cons] at hp
        rcases hp with hp | rfl | hp
        · split at hp
          · next hnone =>
            exact visitTrace_inv fuel (P ++ [w]) u s hlen L.inv (not_visited_iff.2 hnone)
              (fun y hy => (L.inv.reach_last hy).tail hu) p hp
          · simp at hp
        · exact L'.inv
        · exact ih (W ++ [u]) _ (by simpa using hW) L' p hp
    have L₀ := LoopInv.start I hw hreach
    have Lend := LoopInv.foldl I hcall _ [] _ (List.nil_append _) L₀
    rw [visitTrace_succ_of_not_visited hw]
    simp only [List.mem_cons, List.mem_append, List.mem_singleton, List.not_mem_nil, or_false]
    rintro p ((rfl | hp) | rfl | rfl)
    · exact L₀.inv
    · exact hloop _ [] _ rfl L₀ p hp
    · exact Lend.inv
    · exact (Lend.finish I).inv

/-- `visit` from a state with no call under way keeps the invariant. -/
theorem TarjanInv.visit (I : TarjanInv g [] st) (v : Fin n) :
    TarjanInv g [] (TarjanScc.visit g (n + 1) v st) := by
  by_cases hv : st.Visited v
  · rwa [visit_of_some hv.index_eq]
  · exact (visit_spec g (n + 1) [] v st (by simp) I hv fun y hy =>
      absurd (I.stack_reach y hy) (by simp)).inv

/-- **Every state of a run from `new()`** meets the invariant, with the calls under way in it. -/
theorem runTrace_inv : ∀ p ∈ runTrace g new, TarjanInv g p.1 p.2 := by
  suffices h : ∀ (ids : List (Fin n)) (st : TarjanScc n), TarjanInv g [] st →
      ∀ p ∈ runTrace.loop g ids st, TarjanInv g p.1 p.2 by
    simp only [runTrace, List.mem_cons]
    rintro p (rfl | hp)
    exacts [tarjanInv_new g, h _ _ (tarjanInv_new g) p hp]
  intro ids
  induction ids with
  | nil => simp [runTrace.loop]
  | cons v vs ih =>
    intro st I p hp
    rcases List.mem_append.1 hp with hp | hp
    · by_cases hv : st.Visited v
      · simp [visitTrace_of_visited hv] at hp
      · exact visitTrace_inv (n + 1) [] v st (by simp) I hv
          (fun y hy => absurd (I.stack_reach y hy) (by simp)) p hp
    · exact ih _ (I.visit v) p hp

end fresh

/-! ## The discipline of the stack -/

section discipline

variable {P : List (Fin n)} {st : TarjanScc n} {v : Fin n}

/-- The `on_stack` flags mark exactly the nodes on the stack, which are numbered and appear
once. -/
def StackSound (st : TarjanScc n) : Prop :=
  (∀ u, (st.nodes u).onStack = true ↔ u ∈ st.stack) ∧ (∀ u ∈ st.stack, st.Visited u) ∧
    st.stack.Nodup

/-- `v` is on the stack, `rposition` finds it, and the slice from it to the top is made of the
stack nodes numbered no earlier than `v`. -/
def RootFound (v : Fin n) (st : TarjanScc n) : Prop :=
  v ∈ st.stack ∧ ∃ i nodes, rposition v st.stack.reverse st.nodes = (some i, nodes) ∧
    ∀ u, u ∈ st.stack.drop i ↔ u ∈ st.stack ∧ st.idx v ≤ st.idx u

theorem TarjanInv.stackSound (I : TarjanInv g P st) : StackSound st :=
  ⟨I.onStack_iff, I.stack_visited, I.stack_nodup⟩

/-- Every call under way has its node on the stack, where `rposition` finds it above the
nodes numbered before it. -/
theorem TarjanInv.rootFound (I : TarjanInv g P st) (hv : v ∈ P) : RootFound v st := by
  have hvs := I.active_stack v hv
  obtain ⟨pre, L, hst⟩ := List.append_of_mem hvs
  have hnd := I.stack_nodup
  have hs := I.stack_sorted
  rw [hst] at hnd hs
  have hvL : v ∉ L := (List.nodup_cons.1 (List.nodup_append.1 hnd).2.1).1
  have hrev : st.stack.reverse = L.reverse ++ v :: pre.reverse := by simp [hst]
  refine ⟨hvs, pre.reverse.length, _, by rw [hrev, rposition_eq (mt List.mem_reverse.1 hvL)],
    fun u => ?_⟩
  have hlt : ∀ x ∈ v :: L, ∀ y ∈ pre, st.idx y < st.idx x := fun x hx y hy =>
    (List.pairwise_append.1 hs).2.2 y hy x hx
  rw [List.length_reverse, hst, List.drop_left]
  constructor
  · intro hu
    refine ⟨List.mem_append_right _ hu, ?_⟩
    rcases List.mem_cons.1 hu with rfl | hu
    · exact le_rfl
    · exact ((List.pairwise_cons.1 (List.pairwise_append.1 hs).2.1).1 u hu).le
  · rintro ⟨hu, hle⟩
    rcases List.mem_append.1 hu with hu | hu
    · exact absurd (hlt v (List.mem_cons_self _ _) u hu) (not_lt.2 hle)
    · exact hu

variable {k : ℕ} {E : List (List (Fin n))}

theorem idx_shift {u : Fin n} (h : st.Visited u) : (st.shift k E).idx u = st.idx u + k := by
  unfold idx; rw [shift_nodes_index, h.index_eq]; rfl

theorem StackSound.shift (h : StackSound st) : StackSound (st.shift k E) := by
  obtain ⟨h₁, h₂, h₃⟩ := h
  exact ⟨by simpa using h₁, by simpa using h₂, h₃⟩

/-- The discipline reads no number, so it survives the shift. -/
theorem RootFound.shift (h : RootFound v st) (hs : StackSound st) : RootFound v (st.shift k E) := by
  obtain ⟨hv, i, nodes, hr, hslice⟩ := h
  refine ⟨hv, i, _, by rw [show (st.shift k E).nodes = fun u => (st.nodes u).shift k from rfl,
    shift_stack, rposition_shift, hr], fun u => ?_⟩
  rw [shift_stack, hslice]
  constructor <;> rintro ⟨hu, hle⟩ <;> refine ⟨hu, ?_⟩ <;>
    simpa [idx_shift (hs.2.1 v hv), idx_shift (hs.2.1 u hu)] using hle

end discipline

/-! ## A reused state runs through the states of a fresh run, shifted -/

section reuse

variable {k : ℕ} {E : List (List (Fin n))}

theorem neighborsTrace_shift {fuel : ℕ} {Q : List (Fin n)} {v : Fin n}
    (hcall : ∀ w s, (unvisited s).card ≤ fuel → visitTrace g fuel Q w (s.shift k E) =
      (visitTrace g fuel Q w s).map fun p => (p.1, p.2.shift k E)) :
    ∀ (ws : List (Fin n)) (s : TarjanScc n), s.Visited v → (unvisited s).card ≤ fuel →
      neighborsTrace (visit g fuel) (visitTrace g fuel Q) Q v ws (s.shift k E) =
        (neighborsTrace (visit g fuel) (visitTrace g fuel Q) Q v ws s).map
          fun p => (p.1, p.2.shift k E)
  | [], _, _, _ => rfl
  | w :: ws, s, hs, hc => by
    have hstep : visitNeighbor (visit g fuel) v w (s.shift k E) =
        (visitNeighbor (visit g fuel) v w s).shift k E := visitNeighbor_shift hs fun hw =>
      ⟨visit_shift k E fuel w s hc, visited_visit fuel w s v hs, visited_visit_self hw hc⟩
    simp only [neighborsTrace, hstep, shift_nodes_index, List.map_append, List.map_cons]
    rw [neighborsTrace_shift hcall ws _ (visitNeighbor_visit_visited hs)
      ((card_unvisited_le fun _ => visitNeighbor_visit_visited).trans hc)]
    cases h : (s.nodes w).index <;> simp [hcall w s hc]

/-- **The states of `visit` commute with the shift**, with fuel for every node not yet
numbered. -/
theorem visitTrace_shift : ∀ (fuel : ℕ) (P : List (Fin n)) (v : Fin n) (st : TarjanScc n),
    (unvisited st).card ≤ fuel →
      visitTrace g fuel P v (st.shift k E) = (visitTrace g fuel P v st).map fun p => (p.1, p.2.shift k E)
  | 0, _, _, _, _ => rfl
  | fuel + 1, P, v, st, hfuel => by
    by_cases hv : st.Visited v
    · rw [visitTrace_of_visited hv, visitTrace_of_visited (visited_shift.2 hv), List.map_nil]
    have hpush := card_unvisited_push hv
    have hv' : (st.push v).Visited v := visited_push.2 (.inl rfl)
    rw [visitTrace_succ_of_not_visited hv, visitTrace_succ_of_not_visited (by simpa using hv),
      push_shift, neighborsTrace_shift (visitTrace_shift fuel (P ++ [v])) _ _ hv' (by omega),
      foldl_neighbor_shift (visit_shift k E fuel) _ _ hv' (by omega), popScc_shift]
    simp

theorem runTrace_shift (st : TarjanScc n) (hst : st.stack = []) :
    runTrace g st = (runTrace g new).map fun p => (p.1, p.2.shift st.index st.emitted) := by
  have h₀ : ({ st with nodes := fun _ => ⟨none, usizeMax, false⟩ } : TarjanScc n) =
      ({ (new : TarjanScc n) with nodes := fun _ => ⟨none, usizeMax, false⟩ }).shift
        st.index st.emitted := by
    obtain ⟨i, nodes, stack, emitted⟩ := st
    subst hst
    simp [shift, new, NodeData.shift]
  suffices h : ∀ (ids : List (Fin n)) (s : TarjanScc n),
      runTrace.loop g ids (s.shift st.index st.emitted) =
        (runTrace.loop g ids s).map fun p => (p.1, p.2.shift st.index st.emitted) by
    rw [runTrace, runTrace, h₀, h, List.map_cons]
  intro ids
  induction ids with
  | nil => exact fun _ => rfl
  | cons v vs ih =>
    intro s
    have hcard : (unvisited s).card ≤ n + 1 :=
      ((Finset.card_le_univ _).trans_eq (Fintype.card_fin n)).trans (Nat.le_succ n)
    rw [runTrace.loop, runTrace.loop, visitTrace_shift _ _ _ _ hcard, visit_shift _ _ _ _ _ hcard,
      ih, List.map_append]

end reuse

end TarjanScc

end Petgraph
