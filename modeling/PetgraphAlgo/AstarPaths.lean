import PetgraphAlgo.Astar

/-!
# What `astar` returns, whatever the costs

`Astar.loop_spec` needs a consistent estimate to show that the path `astar` returns is a
cheapest one.  Whether `astar` finds a path at all, and that what it returns is a path, needs
nothing of the costs.  The path tracker only ever points an unvisited node at the visited node
being expanded, along one of its edges, so following `came_from` from a scored node climbs
through visited nodes, without a cycle, to `start`.  Every edge out of a visited node ends at
a visited node or at a node waiting in the heap.  So while a goal is reachable, the heap never
runs dry before a goal is popped.

* `TrackerCore.reconstruct`: `reconstruct_path_to` of a scored node lists a path from `start`
  without repeated nodes;
* `TrackerInv.loop_spec`: every run returns `None` only when no goal is reachable, and
  `Some(path)` only for such a path to a goal;
* `astar_path_spec`: `astar` returns `Some` exactly when a goal is reachable, whatever the
  costs and the estimate, and then a path from `start` to a goal along edges of `g`, no node
  twice.  This is `astar` where `+` always returns; for integer costs in a debug build,
  where an overflowing `+` panics, `AstarChecked` says when it does not.
-/

namespace Petgraph

open Network

variable {n : ℕ} {E K : Type}

namespace Astar

section Tracker

variable [LinearOrder K] [Add K] (g : Network n E) (isGoal : Fin n → Bool) (start : Fin n)

/-- `v` is visited or waits in the heap. -/
def Entered (st : AstarState n K) (v : Fin n) : Prop :=
  v ∈ st.visited ∨ ∃ x ∈ st.visitNext, x.2 = v

/-- What holds at the head of the loop on every run from `start`, whatever the costs, and also
between two edges of an expansion. -/
structure TrackerCore (st : AstarState n K) : Prop where
  start_cameFrom : st.cameFrom start = none
  start_visited : st.visited = ∅ ∨ start ∈ st.visited
  empty_pop : st.visited = ∅ → ∀ x ∈ st.visitNext, x.2 = start
  start_entry : st.visited = ∅ → ∃ x ∈ st.visitNext, x.2 = start
  visited_not_goal : ∀ v ∈ st.visited, isGoal v = false
  heap_scored : HeapScored st
  visited_scored : ∀ v ∈ st.visited, ∃ s, st.scores v = some s
  /-- A link `u = came_from[v]` is an edge `u → v` out of a visited node. -/
  link : ∀ v u, st.cameFrom v = some u → u ∈ st.visited ∧ ∃ e ∈ g.edges u, e.target = v
  scored_link : ∀ v s, st.scores v = some s → v ≠ start → st.cameFrom v ≠ none
  acyclic : PredAcyclic st.cameFrom

/-- The invariant at the head of the loop: `TrackerCore`, and every edge out of a visited node
ends at a node visited or waiting in the heap. -/
structure TrackerInv (st : AstarState n K) extends TrackerCore g isGoal start st : Prop where
  frontier : ∀ u ∈ st.visited, ∀ e ∈ g.edges u, Entered st e.target

variable {g isGoal start} {edgeCost : EdgeRef n E → K} {estimateCost : Fin n → K}
  {st : AstarState n K} {node : Fin n} {s : K}

omit [LinearOrder K] [Add K] in
/-- Links lead from unvisited nodes only into visited ones. -/
theorem TrackerCore.reach_visited (hc : TrackerCore g isGoal start st) {a b : Fin n}
    (h : Relation.ReflTransGen (PredLink st.cameFrom) a b) : a = b ∨ b ∈ st.visited := by
  induction h with
  | refl => exact .inl rfl
  | tail _ hcb => exact .inr (hc.link _ _ hcb).1

/-- **Edge step.**  Each edge of an expansion keeps `TrackerCore`. -/
theorem TrackerCore.relax (hc : TrackerCore g isGoal start st) (hnode : node ∈ st.visited)
    {e : EdgeRef n E} (he : e ∈ g.edges node) :
    TrackerCore g isGoal start (relaxNext edgeCost estimateCost node s st e) := by
  have hne : st.visited ≠ ∅ := Finset.ne_empty_of_mem hnode
  have hscored : HeapScored (relaxNext edgeCost estimateCost node s st e) :=
    hc.heap_scored.relax e
  rcases relaxNext_cases edgeCost estimateCost node s st e with ⟨-, h⟩ | ⟨-, old, -, -, h⟩ |
      ⟨ht, -, h⟩ <;> rw [h] at hscored ⊢
  · exact hc
  · exact { hc with
      empty_pop := fun h => absurd h hne
      start_entry := fun h => absurd h hne
      heap_scored := hscored }
  · have hvt : ∀ {v}, v ∈ st.visited → v ≠ e.target := fun hv h => ht (h ▸ hv)
    have hstart := hvt (hc.start_visited.resolve_left hne)
    refine ⟨by simpa [hstart] using hc.start_cameFrom, hc.start_visited, fun h => absurd h hne,
      fun h => absurd h hne, hc.visited_not_goal, hscored,
      fun v hv => by simpa [hvt hv] using hc.visited_scored v hv, fun v u hvu => ?_,
      fun v a ha hvs => ?_, hc.acyclic.update fun h => ?_⟩
    · by_cases hv : v = e.target
      · subst hv
        obtain rfl : node = u := by simpa using hvu
        exact ⟨hnode, e, he, rfl⟩
      · exact hc.link v u (by simpa [hv] using hvu)
    · by_cases hv : v = e.target
      · subst hv; simp
      · simpa [hv] using hc.scored_link v a (by simpa [hv] using ha) hvs
    · rcases hc.reach_visited h with h | h
      exacts [ht (h ▸ hnode), ht h]

omit [Add K] in
/-- Erasing an entry of a node about to be visited, or already visited, leaves every node
entered. -/
theorem Entered.erase {st' : AstarState n K} {v : Fin n} {x : K × Fin n}
    (h : Entered st v) (hvis : st.visited ⊆ st'.visited) (hx : x.2 ∈ st'.visited)
    (hnext : st'.visitNext = st.visitNext.erase x) : Entered st' v := by
  rcases h with h | ⟨y, hy, rfl⟩
  · exact .inl (hvis h)
  · by_cases hyx : y = x
    · exact .inl (hyx ▸ hx)
    · exact .inr ⟨y, by rw [hnext]; exact (Multiset.mem_erase_of_ne hyx).2 hy, rfl⟩

theorem Entered.relax {v : Fin n} (h : Entered st v) (e : EdgeRef n E) :
    Entered (relaxNext edgeCost estimateCost node s st e) v := by
  rcases h with h | ⟨x, hx, rfl⟩
  exacts [.inl (by simpa using h), .inr ⟨x, relaxNext_visitNext st e hx, rfl⟩]

/-- After an edge is relaxed, its target is visited or has an entry. -/
theorem entered_relaxNext (e : EdgeRef n E) :
    Entered (relaxNext edgeCost estimateCost node s st e) e.target := by
  rcases relaxNext_cases edgeCost estimateCost node s st e with ⟨hv, h⟩ | ⟨-, old, -, -, h⟩ |
      ⟨-, -, h⟩ <;> rw [h]
  · exact .inl hv
  · exact .inr ⟨_, Multiset.mem_cons_self _ _, rfl⟩
  · exact .inr ⟨_, Multiset.mem_cons_self _ _, rfl⟩

/-- After an expansion, every edge of the expanded node ends at an entered node. -/
theorem entered_foldl (L : List (EdgeRef n E)) :
    ∀ e ∈ L, Entered (L.foldl (relaxNext edgeCost estimateCost node s) st) e.target := by
  induction L generalizing st with
  | nil => intro e he; cases he
  | cons e L ih =>
    intro e' he'
    rw [List.foldl_cons]
    rcases List.mem_cons.1 he' with rfl | he'
    · exact foldl_induction (P := fun st => Entered st e'.target)
        (fun _ e _ h => h.relax e) (entered_relaxNext e')
    · exact ih e' he'

omit [LinearOrder K] [Add K] in
theorem TrackerInv.init [Zero K] : TrackerInv g isGoal start (Astar.init estimateCost start) where
  start_cameFrom := rfl
  start_visited := .inl rfl
  empty_pop _ x hx := by simp only [Astar.init, Multiset.mem_singleton] at hx; simp [hx]
  start_entry _ := ⟨_, Multiset.mem_singleton_self _, rfl⟩
  visited_not_goal v hv := absurd hv (Finset.not_mem_empty v)
  heap_scored := heapScored_init estimateCost start
  visited_scored v hv := absurd hv (Finset.not_mem_empty v)
  link _ _ h := by cases h
  scored_link v a ha hvs := by simp [Astar.init, hvs] at ha
  acyclic _ h := by
    obtain ⟨_, h, -⟩ := Relation.TransGen.head'_iff.1 h
    cases h
  frontier u hu := absurd hu (Finset.not_mem_empty u)

omit [Add K] in
/-- **Skip step.**  Dropping an entry of a visited node keeps the invariant. -/
theorem TrackerInv.skip (hi : TrackerInv g isGoal start st) {f : K} (hv : node ∈ st.visited) :
    TrackerInv g isGoal start { st with visitNext := st.visitNext.erase (f, node) } :=
  { hi with
    empty_pop := fun h => absurd h (Finset.ne_empty_of_mem hv)
    start_entry := fun h => absurd h (Finset.ne_empty_of_mem hv)
    heap_scored := hi.heap_scored.erase _
    frontier := fun u hu e he => (hi.frontier u hu e he).erase subset_rfl hv rfl }

omit [Add K] in
/-- Marking the popped node visited and taking its entry off the heap keeps `TrackerCore`. -/
theorem TrackerCore.visit (hc : TrackerCore g isGoal start st) {f : K} (hpop : IsPop st f node)
    (hg : isGoal node = false) (hs : st.scores node = some s) :
    TrackerCore g isGoal start
      ⟨insert node st.visited, st.visitNext.erase (f, node), st.scores, st.cameFrom⟩ := by
  have hnode₂ : node ∈ insert node st.visited := Finset.mem_insert_self _ _
  have hne : insert node st.visited ≠ ∅ := Finset.ne_empty_of_mem hnode₂
  refine ⟨hc.start_cameFrom, .inr ?_, fun h => absurd h hne, fun h => absurd h hne,
    fun v hv => ?_, hc.heap_scored.erase _, fun v hv => ?_,
    fun v u h => (hc.link v u h).imp_left Finset.mem_insert_of_mem, hc.scored_link, hc.acyclic⟩
  · rcases hc.start_visited with h | h
    · exact hc.empty_pop h _ hpop.1 ▸ hnode₂
    · exact Finset.mem_insert_of_mem h
  · rcases Finset.mem_insert.1 hv with rfl | hv
    exacts [hg, hc.visited_not_goal v hv]
  · rcases Finset.mem_insert.1 hv with rfl | hv
    exacts [⟨s, hs⟩, hc.visited_scored v hv]

/-- **Expansion step.**  Expanding the popped node with its score keeps the invariant. -/
theorem TrackerInv.expand (hi : TrackerInv g isGoal start st) {f : K} (hpop : IsPop st f node)
    (hg : isGoal node = false) (hs : st.scores node = some s) :
    TrackerInv g isGoal start
      (Astar.expand g edgeCost estimateCost node s
        { st with visitNext := st.visitNext.erase (f, node) }) := by
  have hnode₂ : node ∈ insert node st.visited := Finset.mem_insert_self _ _
  refine ⟨(foldl_induction
    (P := fun st' => TrackerCore g isGoal start st' ∧ node ∈ st'.visited)
    (fun st' e he h => ⟨h.1.relax h.2 he, by simpa using h.2⟩)
    ⟨hi.toTrackerCore.visit hpop hg hs, hnode₂⟩).1, ?_⟩
  intro u hu e he
  rw [expand_visited] at hu
  rcases Finset.mem_insert.1 hu with rfl | hu
  · exact entered_foldl _ e he
  · exact foldl_induction (P := fun st => Entered st e.target) (fun _ e _ h => h.relax e)
      ((hi.frontier u hu e he).erase (Finset.subset_insert _ _) hnode₂ rfl)

omit [LinearOrder K] [Add K] in
/-- **Path reconstruction.**  From a node with a score, `reconstruct_path_to` lists a path from
`start` to it along edges of `g`, with no node twice. -/
theorem TrackerCore.reconstruct (hc : TrackerCore g isGoal start st) {t : Fin n} {a : K}
    (ha : st.scores t = some a) :
    let path := reconstructPathTo st.cameFrom t
    path.head? = some start ∧ path.getLast? = some t ∧
      path.Chain' (fun u w => ∃ e ∈ g.edges u, e.target = w) ∧ path.Nodup := by
  obtain ⟨rest, hnd, hch, hlast⟩ := hc.acyclic.exists_chain t
  have hsc : ∀ x, Relation.ReflTransGen (PredLink st.cameFrom) t x → ∃ a, st.scores x = some a := by
    intro x hx
    induction hx with
    | refl => exact ⟨a, ha⟩
    | tail _ hyz => exact hc.visited_scored _ (hc.link _ _ hyz).1
  have hend : (t :: rest).getLast (List.cons_ne_nil t rest) = start := by
    by_contra h
    obtain ⟨b, hb⟩ := hsc _ (reflTransGen_of_mem_chain hch (List.getLast_mem _))
    exact hc.scored_link _ b hb h hlast
  have hlen : rest.length ≤ n := by
    have := hnd.length_le_card
    simp only [List.length_cons, Fintype.card_fin] at this
    omega
  have hpath : reconstructPathTo st.cameFrom t = (t :: rest).reverse := by
    rw [reconstructPathTo, followCameFrom_eq hch hlast hlen]
  simp only [hpath]
  refine ⟨by rw [List.head?_reverse, List.getLast?_eq_getLast _ (List.cons_ne_nil t rest), hend],
    by rw [List.getLast?_reverse]; rfl, List.chain'_reverse.2 (hch.imp fun w u hwu => ?_),
    List.nodup_reverse.2 hnd⟩
  exact (hc.link w u hwu).2

omit [LinearOrder K] [Add K] in
/-- With the heap empty, the visited nodes are closed under the edges of `g`. -/
theorem TrackerInv.visited_of_walk (hi : TrackerInv g isGoal start st) (h0 : st.visitNext = 0) :
    ∀ (q : List (EdgeRef n E)) (a T : Fin n), a ∈ st.visited → g.IsWalk a q T → T ∈ st.visited
  | [], a, T, ha, hq => by obtain rfl := hq; exact ha
  | e :: q, a, T, ha, hq => by
    refine hi.visited_of_walk h0 q e.target T ?_ hq.2
    rcases hi.frontier a ha e hq.1 with h | ⟨x, hx, -⟩
    exacts [h, by simp [h0] at hx]

/-- **Runs.**  Whatever the costs, a run from a state satisfying the invariant returns `None`
only when no goal is reachable from `start`, and `Some(path)` only for a path from `start` to
a goal along edges of `g`, with no node twice. -/
theorem TrackerInv.loop_spec (hi : TrackerInv g isGoal start st) {r : Option (List (Fin n))}
    (h : Loop g edgeCost estimateCost isGoal st r) :
    (r = none → ∀ t, isGoal t = true → ∀ q, ¬ g.IsWalk start q t) ∧
    ∀ path, r = some path → path.head? = some start ∧
      (∃ t, path.getLast? = some t ∧ isGoal t = true) ∧
      path.Chain' (fun u w => ∃ e ∈ g.edges u, e.target = w) ∧ path.Nodup := by
  induction h with
  | @exhausted st₀ h0 =>
    refine ⟨fun _ t ht q hq => ?_, fun _ h => by cases h⟩
    rcases hi.start_visited with hemp | hstart
    · obtain ⟨x, hx, -⟩ := hi.start_entry hemp
      simp [h0] at hx
    · simp [hi.visited_not_goal t (hi.visited_of_walk h0 q start t hstart hq)] at ht
  | @goal st₀ f v hpop hg =>
    refine ⟨(fun h => by cases h), fun path hpath => ?_⟩
    cases hpath
    obtain ⟨a, ha⟩ := hi.heap_scored _ hpop.1
    obtain ⟨hhead, hlast, hchain, hnd⟩ := hi.reconstruct ha
    exact ⟨hhead, ⟨v, hlast, hg⟩, hchain, hnd⟩
  | skip _ _ hv _ ih => exact ih (hi.skip hv)
  | expand hpop hg _ hs _ ih => exact ih (hi.expand hpop hg hs)

end Tracker

end Astar

/-- A list of nodes each joined to the next by an edge of `g` is a walk from its first node to
its last. -/
theorem Network.exists_walk_of_chain (g : Network n E) :
    ∀ (a : Fin n) (l : List (Fin n)), (a :: l).Chain' (fun u w => ∃ e ∈ g.edges u, e.target = w) →
      ∃ q, g.IsWalk a q ((a :: l).getLast (List.cons_ne_nil a l))
  | a, [], _ => ⟨[], rfl⟩
  | a, b :: l, h => by
    obtain ⟨⟨e, he, rfl⟩, h⟩ := List.chain'_cons.1 h
    obtain ⟨q, hq⟩ := Network.exists_walk_of_chain g e.target l h
    exact ⟨e :: q, he, by simpa using hq⟩

/-- What every value `astar` can return says: `Some(path)` exactly when some goal is reachable
from `start`, and such a path starts at `start`, ends at a goal, follows edges of `g` from each
node to the next, and has no node twice. -/
theorem Astar.returns_spec [LinearOrder K] [Add K] [Zero K] {g : Network n E} {start : Fin n}
    {isGoal : Fin n → Bool} {edgeCost : EdgeRef n E → K} {estimateCost : Fin n → K}
    {r : Option (List (Fin n))} (hr : Astar g start isGoal edgeCost estimateCost r) :
    ((∃ path, r = some path) ↔ ∃ t q, isGoal t = true ∧ g.IsWalk start q t) ∧
      ∀ path, r = some path → path.head? = some start ∧
        (∃ t, path.getLast? = some t ∧ isGoal t = true) ∧
        path.Chain' (fun u w => ∃ e ∈ g.edges u, e.target = w) ∧ path.Nodup := by
  obtain ⟨hnone, hsome⟩ := Astar.TrackerInv.init.loop_spec hr
  refine ⟨⟨fun ⟨path, hp⟩ => ?_, fun ⟨t, q, ht, hq⟩ => ?_⟩, hsome⟩
  · obtain ⟨hhead, ⟨t, hlast, ht⟩, hchain, -⟩ := hsome path hp
    cases path with
    | nil => cases hhead
    | cons a l =>
      obtain rfl : a = start := by simpa using hhead
      obtain ⟨q, hq⟩ := Network.exists_walk_of_chain g a l hchain
      rw [List.getLast?_eq_getLast _ (List.cons_ne_nil a l), Option.some.injEq] at hlast
      exact ⟨t, q, ht, hlast ▸ hq⟩
  · cases r with
    | none => exact absurd hq (hnone rfl t ht q)
    | some path => exact ⟨path, rfl⟩

/-- **Where `+` cannot fail, `astar` finds a path exactly when a goal is reachable, whatever the
costs.**  With an addition that always returns (exact measures, or integers in a release
build, where `+` wraps), for every graph, start, goal predicate, edge cost and estimate, with
no sign or admissibility condition, `astar` returns, and every value it can return is
`Some(path)` exactly when some goal is reachable from `start`.  Such a path starts at `start`,
ends at a goal, follows edges of `g` from each node to the next, and has no node twice. -/
theorem astar_path_spec [LinearOrder K] [Add K] [Zero K] (g : Network n E) (start : Fin n)
    (isGoal : Fin n → Bool) (edgeCost : EdgeRef n E → K) (estimateCost : Fin n → K) :
    (∃ r, Astar g start isGoal edgeCost estimateCost r) ∧
    ∀ r, Astar g start isGoal edgeCost estimateCost r →
      ((∃ path, r = some path) ↔ ∃ t q, isGoal t = true ∧ g.IsWalk start q t) ∧
      ∀ path, r = some path → path.head? = some start ∧
        (∃ t, path.getLast? = some t ∧ isGoal t = true) ∧
        path.Chain' (fun u w => ∃ e ∈ g.edges u, e.target = w) ∧ path.Nodup :=
  ⟨Astar.exists_loop g edgeCost estimateCost isGoal _ (Astar.heapScored_init estimateCost start),
    fun _ hr => Astar.returns_spec hr⟩

end Petgraph
