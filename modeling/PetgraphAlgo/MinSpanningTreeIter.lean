import PetgraphAlgo.MinSpanningTree

/-!
# The iterator `MinSpanningTree` over whole runs

Each call of `next()` yields a node reference, or pops at least one edge off `sort_edges`
before it yields one, or returns `None`; and it returns `None` only once the node references
are done and the heap is empty.  So what is left to do (`pending`: the node references not
yet yielded and the edges still on the heap) falls with every item (`next_pending_lt`), and
after a `None` every further call returns `None` again, leaving the iterator as it is
(`minSpanningTree_next_fused`): the iterator is fused.

Together these justify the fuel of `minSpanningTreeElements`: one call more than there are
nodes and edges reaches the end, and more calls change nothing
(`minSpanningTreeElements_complete`).
-/

namespace Petgraph

variable {n : ℕ} {N E : Type}

namespace MinSpanningTree

variable {m : Fin n → Option ℕ} {it it' : MinSpanningTree n N E} {x : Element N E}
  {y : Option (Element N E)}

/-- What `next()` has left to do: the node references not yet yielded, and the edges on the
heap. -/
def pending (it : MinSpanningTree n N E) : ℕ := (it.nodeIds.getD []).length + it.sortEdges.length

/-- The loop over the heap returns `None` only with the heap empty, and otherwise pops at
least the edge it yields. -/
theorem popEdge_ok : ∀ {u : UnionFind n} {L : List (EdgeRef n E)}
    {r : Option (Element N E) × UnionFind n × List (EdgeRef n E)}, popEdge m u L = .ok r →
    (r.1 = none ∧ r.2.2 = []) ∨ (r.1.isSome ∧ r.2.2.length < L.length)
  | _, [], _, h => by cases h; exact .inl ⟨rfl, rfl⟩
  | u, e :: L, r, h => by
    rcases hu : u.union e.source e.target with ⟨_ | _, u'⟩ <;> simp only [popEdge, hu] at h
    · rcases popEdge_ok h with hr | ⟨hr, hlt⟩
      exacts [.inl hr, .inr ⟨hr, Nat.lt_succ_of_lt hlt⟩]
    · split at h
      · cases h
        exact .inr ⟨rfl, Nat.lt_succ_self _⟩
      · cases h

/-- Either the node references are done, or `next()` yields the first of them. -/
theorem nodeIds_cases (it : MinSpanningTree n N E) :
    it.nodeIds.getD [] = [] ∨ ∃ node rest, it.nodeIds = some (node :: rest) := by
  rcases it.nodeIds with _ | _ | ⟨node, rest⟩
  exacts [.inl rfl, .inl rfl, .inr ⟨node, rest, rfl⟩]

/-- `next()` after the node references: the loop over the heap, its state kept. -/
theorem next_ok_of_popEdge (h : it.next = .ok (y, it')) (hd : it.nodeIds.getD [] = []) :
    ∃ u' L', popEdge it.nodeMap it.subgraphs it.sortEdges = .ok (y, u', L') ∧
      it' = { it with nodeIds := none, subgraphs := u', sortEdges := L' } := by
  rw [next_of_nodeIds_done hd] at h
  rcases hp : popEdge it.nodeMap it.subgraphs it.sortEdges with _ | ⟨r, u', L'⟩ <;>
    rw [hp] at h <;> cases h
  exact ⟨u', L', rfl, rfl⟩

/-- **Step.**  Every item `next()` yields lowers what is left to do. -/
theorem next_pending_lt (h : it.next = .ok (some x, it')) : pending it' < pending it := by
  rcases nodeIds_cases it with hd | ⟨node, rest, hn⟩
  · obtain ⟨u', L', hp, rfl⟩ := next_ok_of_popEdge h hd
    have hlt := ((popEdge_ok hp).resolve_left (by simp)).2
    simpa [pending, hd] using hlt
  · rw [next_of_nodeIds_cons hn] at h
    cases h
    simp only [pending, hn, Option.getD_some, List.length_cons]
    omega

/-- More calls than there is left to do change nothing. -/
theorem collect_add : ∀ (fuel k : ℕ) (it : MinSpanningTree n N E), pending it < fuel →
    it.collect (fuel + k) = it.collect fuel
  | 0, _, _, h => absurd h (Nat.not_lt_zero _)
  | fuel + 1, k, it, h => by
    rw [Nat.add_right_comm]
    rcases hn : it.next with _ | ⟨_ | x, it'⟩ <;> simp only [collect, hn]
    have := next_pending_lt hn
    rw [collect_add fuel k it' (by omega)]

end MinSpanningTree

/-- **The iterator is fused.**  Once `next()` has returned `None`, every further call
returns `None` and leaves the iterator as it is. -/
theorem minSpanningTree_next_fused (it it' : MinSpanningTree n N E)
    (h : it.next = .ok (none, it')) : it'.next = .ok (none, it') := by
  rcases MinSpanningTree.nodeIds_cases it with hd | ⟨node, rest, hn⟩
  · obtain ⟨u', L', hp, rfl⟩ := MinSpanningTree.next_ok_of_popEdge h hd
    obtain ⟨-, rfl⟩ := (MinSpanningTree.popEdge_ok hp).resolve_right (by simp)
    rfl
  · rw [MinSpanningTree.next_of_nodeIds_cons hn] at h
    cases h

theorem minSpanningTree_next_fused_done :
    (⟨some [], UnionFind.new, [], fun _ => none, 0⟩ : MinSpanningTree 1 Unit ℕ).next =
      .ok (none, ⟨none, UnionFind.new, [], fun _ => none, 0⟩) ∧
    (⟨none, UnionFind.new, [], fun _ => none, 0⟩ : MinSpanningTree 1 Unit ℕ).next =
      .ok (none, ⟨none, UnionFind.new, [], fun _ => none, 0⟩) :=
  ⟨rfl, minSpanningTree_next_fused ⟨some [], UnionFind.new, [], fun _ => none, 0⟩ _ rfl⟩

/-- **Iterating to the end.**  `minSpanningTreeElements` calls `next()` one time more than
there are nodes and edges; any number of further calls yields nothing more, so it is what
iterating `min_spanning_tree(g)` to its end yields. -/
theorem minSpanningTreeElements_complete [LE E] (g : RefGraph n N E) (order : PopOrder g.edgeRefs)
    (k : ℕ) :
    (minSpanningTree g order).collect (g.nodeRefs.length + g.edgeRefs.length + 1 + k) =
      minSpanningTreeElements g order :=
  MinSpanningTree.collect_add _ k _
    (Nat.lt_succ_of_le (Nat.add_le_add_left order.perm.length_eq.le _))

end Petgraph
