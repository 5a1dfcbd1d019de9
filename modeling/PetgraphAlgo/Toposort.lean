import PetgraphAlgo.PostOrder

/-!
# `toposort`

`toposort(g, space)` of `src/algo/mod.rs`, "based on kosaraju scc".  Phase 1 runs the
post-order loop over every root and records the finish order in `finish_stack`,
returning `Cycle(nx)` as soon as a node being discovered has a self-loop.  Phase 2
reverses `finish_stack` and, for each node `i` in that order, runs a `Dfs` over the
reversed graph from `i`: finding a second new node means `i` is not alone in its strongly
connected component.

The main result is `toposort_spec`: `toposort` succeeds exactly on acyclic graphs, and
its result lists every node once, each before its successors.  It is assembled from
`toposortRoots_ok` (phase 1 is a complete post-order traversal, `PostInv`) and
`toposortCheck_ok_iff` (phase 2 succeeds exactly when every edge into a node comes
from a node before it).
-/

namespace Petgraph

variable {n : ℕ}

/-- An algorithm error: a cycle was found in the graph (`Cycle<N>`). -/
structure Cycle (n : ℕ) where
  /-- `Cycle::node_id`: a node that participates in the cycle. -/
  nodeId : Fin n
  deriving DecidableEq

/-- `DfsSpace`: a workspace for a graph traversal. -/
structure DfsSpace (n : ℕ) where
  dfs : Dfs n

/-- `with_dfs`: the caller's workspace, or a fresh one. -/
def withDfs : Option (DfsSpace n) → Dfs n
  | some v => v.dfs
  | none => Dfs.empty

/-! ## The model -/

/-- Phase 1's `while let Some(&nx) = dfs.stack.last()` loop: the loop of
`DfsPostOrder::next` (the workspace's stack and discovered map with the local `finished`
map), with the self-loop check, appending to `finish_stack` instead of returning. -/
def toposortVisit (g : Graph n) (dfs : DfsPostOrder n) (finishStack : List (Fin n)) :
    Except (Cycle n) (DfsPostOrder n × List (Fin n)) :=
  match dfs with
  | ⟨[], d, f⟩ => .ok (⟨[], d, f⟩, finishStack)
  | ⟨nx :: s, d, f⟩ =>
    if nx ∉ d then
      if nx ∈ g.neighbors nx then .error ⟨nx⟩
      else
        toposortVisit g ⟨pushUnvisited (insert nx d) (g.neighbors nx) (nx :: s), insert nx d, f⟩
          finishStack
    else if nx ∉ f then toposortVisit g ⟨s, d, insert nx f⟩ (finishStack ++ [nx])
    else toposortVisit g ⟨s, d, f⟩ finishStack
termination_by (n - dfs.discovered.card, dfs.stack.length)
decreasing_by
  · exact Prod.Lex.left _ _ (card_insert_lt ‹_›)
  · exact Prod.Lex.right _ (by simp)
  · exact Prod.Lex.right _ (by simp)

/-- Phase 1: `for i in g.node_identifiers() { if dfs.discovered.is_visited(&i) { continue; }
dfs.stack.push(i); .. }`. -/
def toposortRoots (g : Graph n) : List (Fin n) → DfsPostOrder n → List (Fin n) →
    Except (Cycle n) (DfsPostOrder n × List (Fin n))
  | [], dfs, finishStack => .ok (dfs, finishStack)
  | i :: is, dfs, finishStack =>
    if i ∈ dfs.discovered then toposortRoots g is dfs finishStack
    else
      match toposortVisit g ⟨i :: dfs.stack, dfs.discovered, dfs.finished⟩ finishStack with
      | .error c => .error c
      | .ok (dfs', finishStack') => toposortRoots g is dfs' finishStack'

/-- Phase 2's `let mut cycle = false; while let Some(j) = dfs.next(Reversed(g)) { if cycle
{ return Err(Cycle(j)); } cycle = true; }`. -/
def toposortCheckRoot (g : Graph n) (cycle : Bool) (dfs : Dfs n) : Except (Cycle n) (Dfs n) :=
  match dfs.next g.reversed with
  | (none, dfs') => .ok dfs'
  | (some j, dfs') => if cycle then .error ⟨j⟩ else toposortCheckRoot g true dfs'
termination_by if cycle then 0 else 1
decreasing_by simp_all

/-- Phase 2: `for &i in &finish_stack { dfs.move_to(i); .. }`. -/
def toposortCheck (g : Graph n) : List (Fin n) → Dfs n → Except (Cycle n) (Dfs n)
  | [], dfs => .ok dfs
  | i :: is, dfs =>
    match toposortCheckRoot g false (dfs.moveTo i) with
    | .error c => .error c
    | .ok dfs' => toposortCheck g is dfs'

/-- `toposort(g, space)`. -/
def toposort (g : Graph n) (space : Option (DfsSpace n)) : Except (Cycle n) (List (Fin n)) :=
  let dfs := (withDfs space).reset
  match toposortRoots g g.nodeIdentifiers ⟨dfs.stack, dfs.discovered, ∅⟩ [] with
  | .error c => .error c
  | .ok (dfs, finishStack) =>
    let finishStack := finishStack.reverse
    match toposortCheck g finishStack (Dfs.reset ⟨dfs.stack, dfs.discovered⟩) with
    | .error c => .error c
    | .ok _ => .ok finishStack

/-! ## Phase 1 -/

section phase1

variable {g : Graph n} {dfs dfs' : DfsPostOrder n} {fs fs' : List (Fin n)} {c : Cycle n}

/-- Phase 1 fails only on a self-loop. -/
theorem toposortVisit_error (h : toposortVisit g dfs fs = .error c) : g.Adj c.nodeId c.nodeId := by
  induction dfs, fs using toposortVisit.induct g with
  | case1 => simp [toposortVisit] at h
  | case2 fs nx s d f hx hloop =>
    rw [toposortVisit, if_pos hx, if_pos hloop] at h; cases h; exact hloop
  | case3 fs nx s d f hx hloop ih => rw [toposortVisit, if_pos hx, if_neg hloop] at h; exact ih h
  | case4 fs nx s d f hx hf ih => rw [toposortVisit, if_neg hx, if_pos hf] at h; exact ih h
  | case5 fs nx s d f hx hf ih => rw [toposortVisit, if_neg hx, if_neg hf] at h; exact ih h

/-- A successful visit keeps the invariant, empties the stack, discovers every node that was
on it, and discovers no node with a self-loop. -/
theorem toposortVisit_ok (h : toposortVisit g dfs fs = .ok (dfs', fs')) (I : PostInv g dfs fs) :
    PostInv g dfs' fs' ∧ dfs'.stack = [] ∧ dfs.discovered ⊆ dfs'.discovered ∧
      (∀ x ∈ dfs.stack, x ∈ dfs'.discovered) ∧
      ∀ v ∈ dfs'.discovered, v ∉ dfs.discovered → ¬ g.Adj v v := by
  induction dfs, fs using toposortVisit.induct g with
  | case1 fs d f =>
    simp only [toposortVisit, Except.ok.injEq, Prod.mk.injEq] at h
    obtain ⟨rfl, rfl⟩ := h
    exact ⟨I, rfl, subset_rfl, by simp, fun v hv hv' => absurd hv hv'⟩
  | case2 fs nx s d f hx hloop => rw [toposortVisit, if_pos hx, if_pos hloop] at h; cases h
  | case3 fs nx s d f hx hloop ih =>
    rw [toposortVisit, if_pos hx, if_neg hloop] at h
    obtain ⟨I', hs, hd, hst, hl⟩ := ih h (I.discover hx)
    refine ⟨I', hs, (Finset.subset_insert _ _).trans hd, fun x hx' => hst x ?_, fun v hv hvd => ?_⟩
    · simp only [List.mem_cons] at hx'
      simp [hx']
    · by_cases hvx : v = nx
      · exact hvx ▸ hloop
      · exact hl v hv (by simp [hvx, hvd])
  | case4 fs nx s d f hx hf ih =>
    rw [toposortVisit, if_neg hx, if_pos hf] at h
    obtain ⟨I', hs, hd, hst, hl⟩ := ih h (I.finish (not_not.1 hx) hf)
    refine ⟨I', hs, hd, fun x hx' => ?_, hl⟩
    rcases List.mem_cons.1 hx' with rfl | hx'
    · exact hd (not_not.1 hx)
    · exact hst x hx'
  | case5 fs nx s d f hx hf ih =>
    rw [toposortVisit, if_neg hx, if_neg hf] at h
    obtain ⟨I', hs, hd, hst, hl⟩ := ih h (I.skip (not_not.1 hf))
    refine ⟨I', hs, hd, fun x hx' => ?_, hl⟩
    rcases List.mem_cons.1 hx' with rfl | hx'
    · exact hd (not_not.1 hx)
    · exact hst x hx'

theorem toposortRoots_error {is : List (Fin n)} (h : toposortRoots g is dfs fs = .error c) :
    g.Adj c.nodeId c.nodeId := by
  induction is generalizing dfs fs with
  | nil => simp [toposortRoots] at h
  | cons i is ih =>
    rw [toposortRoots] at h
    split_ifs at h
    · exact ih h
    · split at h
      · cases h; exact toposortVisit_error ‹_›
      · exact ih h

/-- Phase 1 over the roots `is`, from an empty stack. -/
theorem toposortRoots_ok {is : List (Fin n)} (h : toposortRoots g is dfs fs = .ok (dfs', fs'))
    (I : PostInv g dfs fs) (hs : dfs.stack = []) (hl : ∀ v ∈ dfs.discovered, ¬ g.Adj v v) :
    PostInv g dfs' fs' ∧ dfs'.stack = [] ∧ dfs.discovered ⊆ dfs'.discovered ∧
      (∀ i ∈ is, i ∈ dfs'.discovered) ∧ ∀ v ∈ dfs'.discovered, ¬ g.Adj v v := by
  induction is generalizing dfs fs with
  | nil =>
    simp only [toposortRoots, Except.ok.injEq, Prod.mk.injEq] at h
    obtain ⟨rfl, rfl⟩ := h
    exact ⟨I, hs, subset_rfl, by simp, hl⟩
  | cons i is ih =>
    obtain ⟨s, d, f⟩ := dfs
    simp only at hs
    subst hs
    rw [toposortRoots] at h
    split_ifs at h with hi
    · obtain ⟨I', hs', hd, hr, hl'⟩ := ih h I rfl hl
      refine ⟨I', hs', hd, fun j hj => ?_, hl'⟩
      rcases List.mem_cons.1 hj with rfl | hj
      · exact hd hi
      · exact hr j hj
    · split at h
      · cases h
      · rename_i dfs₁ fs₁ hv
        obtain ⟨I₁, hs₁, hd₁, hst₁, hl₁⟩ := toposortVisit_ok hv I.root
        obtain ⟨I', hs', hd, hr, hl'⟩ := ih h I₁ hs₁ fun v hv' => by
          by_cases hvd : v ∈ d
          · exact hl v hvd
          · exact hl₁ v hv' hvd
        refine ⟨I', hs', hd₁.trans hd, fun j hj => ?_, hl'⟩
        rcases List.mem_cons.1 hj with rfl | hj
        · exact hd (hst₁ j (List.mem_singleton_self j))
        · exact hr j hj

/-- **Phase 1.** When it succeeds, `finish_stack` lists every node once in a post-order:
for every edge `u → v`, `v` finished before `u` or `v` reaches `u`; and no node has a
self-loop. -/
theorem toposortRoots_complete (h : toposortRoots g g.nodeIdentifiers DfsPostOrder.empty [] =
    .ok (dfs', fs')) :
    fs'.Nodup ∧ (∀ v, v ∈ fs') ∧ (∀ u v, g.Adj u v → Before fs' v u ∨ g.Reach v u) ∧
      ∀ v, ¬ g.Adj v v := by
  obtain ⟨I, hs, -, hr, hl⟩ := toposortRoots_ok h PostInv.init rfl (by simp [DfsPostOrder.empty])
  have hd : ∀ v, v ∈ dfs'.discovered := fun v => hr v (g.mem_nodeIdentifiers v)
  obtain ⟨s, d, f⟩ := dfs'
  simp only at hs hd hl
  subst hs
  obtain ⟨hnd, hall⟩ := I.complete hd
  refine ⟨hnd, hall, fun u v huv => I.finished_adj u ?_ v huv, fun v => hl v (hd v)⟩
  rw [← I.discovered_eq]; exact hd u

end phase1

/-! ## Phase 2 -/

section phase2

variable {g : Graph n} {D : Finset (Fin n)} {i : Fin n}

/-- A root already discovered yields nothing. -/
theorem toposortCheckRoot_of_mem (s : List (Fin n)) (hi : i ∈ D) :
    toposortCheckRoot g false (Dfs.moveTo ⟨s, D⟩ i) = .ok ⟨[], D⟩ := by
  rw [toposortCheckRoot]
  simp [Dfs.moveTo, Dfs.next, Dfs.next.loop, hi]

/-- A new root fails exactly when it has an in-neighbour other than itself that is not yet
discovered; the error names the first one popped. -/
theorem toposortCheckRoot_of_not_mem (s : List (Fin n)) (hi : i ∉ D) :
    toposortCheckRoot g false (Dfs.moveTo ⟨s, D⟩ i) =
      match pushUnvisited (insert i D) (g.incoming i) [] with
      | [] => .ok ⟨[], insert i D⟩
      | p :: _ => .error ⟨p⟩ := by
  have hp : ∀ p ∈ pushUnvisited (insert i D) (g.incoming i) [], p ∉ insert i D := fun p hp => by
    simp only [mem_pushUnvisited, List.not_mem_nil, or_false] at hp; exact hp.2
  rw [toposortCheckRoot]
  simp only [Dfs.moveTo, Dfs.next, Dfs.next.loop, hi, not_false_eq_true, if_true,
    Graph.reversed_neighbors, Bool.false_eq_true, if_false]
  rw [toposortCheckRoot]
  revert hp
  cases pushUnvisited (insert i D) (g.incoming i) [] with
  | nil => intro; rfl
  | cons p ps => intro hp; simp [Dfs.next, Dfs.next.loop, hp p (List.mem_cons_self p ps)]

theorem toposortCheckRoot_ok_iff (s : List (Fin n)) (hi : i ∉ D) {dfs' : Dfs n} :
    toposortCheckRoot g false (Dfs.moveTo ⟨s, D⟩ i) = .ok dfs' ↔
      (∀ u, g.Adj u i → u ∈ insert i D) ∧ dfs' = ⟨[], insert i D⟩ := by
  have : (∀ u, g.Adj u i → u ∈ insert i D) ↔ pushUnvisited (insert i D) (g.incoming i) [] = [] := by
    rw [List.eq_nil_iff_forall_not_mem]
    simp [Graph.Adj, ← g.mem_incoming, or_iff_not_imp_left]
  rw [toposortCheckRoot_of_not_mem s hi, this]
  cases pushUnvisited (insert i D) (g.incoming i) [] with
  | nil => simp [eq_comm]
  | cons p ps => simp

/-- **Phase 2.** Over a list without duplicates, disjoint from the discovered map, the checks
all succeed exactly when every edge into a node of the list comes from a discovered node,
from the node itself, or from a node earlier in the list. -/
theorem toposortCheck_ok_iff {L : List (Fin n)} (hL : L.Nodup) (s : List (Fin n))
    (hD : ∀ i ∈ L, i ∉ D) :
    (∃ dfs', toposortCheck g L ⟨s, D⟩ = .ok dfs') ↔
      ∀ i ∈ L, ∀ u, g.Adj u i → u ∈ D ∨ u = i ∨ Before L u i := by
  induction L generalizing D s with
  | nil => simp [toposortCheck]
  | cons i is ih =>
    obtain ⟨hi, his⟩ := List.nodup_cons.1 hL
    have hiD := hD i (List.mem_cons_self i is)
    have hD' : ∀ j ∈ is, j ∉ insert i D := fun j hj => by
      rw [Finset.mem_insert, not_or]
      exact ⟨fun h => hi (h ▸ hj), hD j (List.mem_cons_of_mem i hj)⟩
    by_cases hroot : ∀ u, g.Adj u i → u ∈ insert i D
    · have hok := (toposortCheckRoot_ok_iff (g := g) s hiD).2 ⟨hroot, rfl⟩
      rw [toposortCheck, hok, ih his [] hD']
      constructor
      · intro h j hj u hu
        rcases List.mem_cons.1 hj with rfl | hj
        · rcases Finset.mem_insert.1 (hroot u hu) with rfl | h'
          · exact .inr (.inl rfl)
          · exact .inl h'
        · rcases h j hj u hu with h' | h' | h'
          · rcases Finset.mem_insert.1 h' with hui | h'
            · exact .inr (.inr (before_cons_iff.2 (.inr ⟨hui, hj⟩)))
            · exact .inl h'
          · exact .inr (.inl h')
          · exact .inr (.inr (before_cons_iff.2 (.inl h')))
      · intro h j hj u hu
        rcases h j (List.mem_cons_of_mem i hj) u hu with h' | h' | h'
        · exact .inl (Finset.mem_insert_of_mem h')
        · exact .inr (.inl h')
        · rcases before_cons_iff.1 h' with h' | ⟨rfl, -⟩
          · exact .inr (.inr h')
          · exact .inl (Finset.mem_insert_self _ _)
    · have herr : ∀ dfs', toposortCheckRoot g false (Dfs.moveTo ⟨s, D⟩ i) ≠ .ok dfs' :=
        fun dfs' h => hroot ((toposortCheckRoot_ok_iff s hiD).1 h).1
      constructor
      · rintro ⟨dfs', h⟩
        rw [toposortCheck] at h
        split at h
        · cases h
        · exact absurd ‹_› (herr _)
      · intro h
        push_neg at hroot
        obtain ⟨u, hu, hu'⟩ := hroot
        rcases h i (List.mem_cons_self i is) u hu with h' | rfl | h'
        · exact absurd (Finset.mem_insert_of_mem h') hu'
        · exact absurd (Finset.mem_insert_self _ _) hu'
        · rcases before_cons_iff.1 h' with h' | ⟨rfl, -⟩
          · exact absurd (List.singleton_sublist.1 ((List.sublist_cons_self _ _).trans h')) hi
          · exact absurd (Finset.mem_insert_self _ _) hu'

end phase2

/-! ## Correctness -/

/-- If every edge goes forward in a list without duplicates, there is no cycle. -/
theorem acyclic_of_before {g : Graph n} {L : List (Fin n)} (hL : L.Nodup)
    (h : ∀ u v, g.Adj u v → Before L u v) : g.Acyclic := by
  have htrans : ∀ a b, Relation.TransGen g.Adj a b → Before L a b := by
    intro a b hab
    induction hab with
    | single h' => exact h _ _ h'
    | tail _ h' ih => exact ih.trans' hL (h _ _ h')
  exact fun a ha => Before.irrefl hL a (htrans a a ha)

theorem toposort_none (g : Graph n) : toposort g none =
    match toposortRoots g g.nodeIdentifiers DfsPostOrder.empty [] with
    | .error c => .error c
    | .ok (_, fs) =>
      match toposortCheck g fs.reverse ⟨[], ∅⟩ with
      | .error c => .error c
      | .ok _ => .ok fs.reverse := rfl

/-- What `toposort` returns: on an acyclic graph an order listing every node once, each node
before its successors, and on any other graph an error. -/
theorem toposort_result (g : Graph n) :
    (g.Acyclic ∧ ∃ order, toposort g none = .ok order ∧
      order.Nodup ∧ (∀ v, v ∈ order) ∧ ∀ u v, g.Adj u v → Before order u v) ∨
    (¬ g.Acyclic ∧ ∃ c, toposort g none = .error c) := by
  rw [toposort_none]
  cases h1 : toposortRoots g g.nodeIdentifiers DfsPostOrder.empty [] with
  | error c =>
    exact .inr ⟨fun ha => ha _ (.single (toposortRoots_error h1)), c, rfl⟩
  | ok r =>
    obtain ⟨dfs, fs⟩ := r
    dsimp only
    obtain ⟨hnd, hall, hadj, hloop⟩ := toposortRoots_complete h1
    have hL : fs.reverse.Nodup := List.nodup_reverse.2 hnd
    have hfwd : (∀ i ∈ fs.reverse, ∀ u, g.Adj u i →
        u ∈ (∅ : Finset (Fin n)) ∨ u = i ∨ Before fs.reverse u i) ↔
        ∀ u v, g.Adj u v → Before fs.reverse u v := by
      refine ⟨fun h u v huv => ?_, fun h i _ u hu => .inr (.inr (h u i hu))⟩
      rcases h v (List.mem_reverse.2 (hall v)) u huv with h' | rfl | h'
      · simp at h'
      · exact absurd huv (hloop u)
      · exact h'
    have hacyc : (∀ u v, g.Adj u v → Before fs.reverse u v) ↔ g.Acyclic := by
      refine ⟨acyclic_of_before hL, fun ha u v huv => ?_⟩
      rcases hadj u v huv with h | h
      · exact before_reverse.2 h
      · exact absurd ha (Graph.not_acyclic_of_adj_reach huv h)
    have hcheck := (toposortCheck_ok_iff (g := g) hL [] (D := ∅) (by simp)).trans (hfwd.trans hacyc)
    cases h2 : toposortCheck g fs.reverse ⟨[], ∅⟩ with
    | error c =>
      refine .inr ⟨fun ha => ?_, c, rfl⟩
      obtain ⟨_, h⟩ := hcheck.2 ha
      rw [h2] at h; cases h
    | ok dfs' =>
      have ha := hcheck.1 ⟨dfs', h2⟩
      exact .inl ⟨ha, _, rfl, hL, fun v => List.mem_reverse.2 (hall v), hacyc.2 ha⟩

/-- **`toposort` is correct.**  It returns `Ok` exactly on acyclic graphs, and then its
order lists every node once, each node before its successors. -/
theorem toposort_spec (g : Graph n) :
    ((∃ order, toposort g none = .ok order) ↔ g.Acyclic) ∧
    ∀ order, toposort g none = .ok order →
      order.Nodup ∧ (∀ v, v ∈ order) ∧ ∀ u v, g.Adj u v → Before order u v := by
  rcases toposort_result g with ⟨ha, order, h, hspec⟩ | ⟨hna, c, h⟩
  · refine ⟨⟨fun _ => ha, fun _ => ⟨order, h⟩⟩, fun order' h' => ?_⟩
    obtain rfl : order = order' := Except.ok.inj (h.symm.trans h')
    exact hspec
  · rw [h]
    exact ⟨⟨(fun ⟨_, h'⟩ => by cases h'), fun ha => absurd ha hna⟩, fun _ h' => by cases h'⟩

end Petgraph
