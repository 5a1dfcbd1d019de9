import PetgraphAlgo.ToposortCycle

/-!
# `is_bipartite_undirected`

`is_bipartite_undirected(g, start)` (`src/algo/mod.rs`) colours `start` red and runs a
breadth-first search from it.  It pops a node off the front of the queue and asserts that it
has exactly one colour.  Then it walks the node's neighbours: a neighbour of the node's colour
makes it return `false`, and an uncoloured one gets the other colour and joins the back of the
queue.  When the queue is empty it returns `true`.

Every colour it gives is forced: in any proper 2-colouring of what `start` reaches, a node has
the colour of `start` exactly when it is red (`BipInv.forced`).  So a `false` means there is
no such colouring.  When the queue empties, every coloured node has all its neighbours
coloured the other way.  The coloured nodes then hold everything `start` reaches, and red and
blue colour it properly.  No node is ever coloured twice, so neither the assertion nor the
`panic!` is reached.

* `bipartiteLoop_spec`: the loop returns, without panicking, whether what `start` reaches has
  a proper 2-colouring;
* `isBipartiteUndirected_spec`: the answer of `is_bipartite_undirected`, and its independence
  from `start` on a connected graph;
* `isBipartiteUndirected_arcTriangle`: on a directed graph, `is_bipartite_undirected` follows
  the edges one way only, so it can answer otherwise than on the undirected version of the
  graph.
-/

namespace Petgraph

variable {n : ℕ}

/-- The colour maps `red` and `blue` and the queue `stack` (a `VecDeque`, its front first) of
`is_bipartite_undirected`. -/
structure BipartiteState (n : ℕ) where
  red : Finset (Fin n)
  blue : Finset (Fin n)
  stack : List (Fin n)

namespace BipartiteState

/-- What every round of the loop lowers: colouring a node takes two, popping one takes one, and
pushing one gives one back. -/
def pending (st : BipartiteState n) : ℕ := 2 * (n - (st.red ∪ st.blue).card) + st.stack.length

end BipartiteState

/-- `for neighbour in g.neighbors(node) { ... }`, with `isRed` and `isBlue` the colours of
`node`: `some` of the state when the loop ends, `none` when it returns `false`, an error when it
panics. -/
def colourNeighbours (isRed isBlue : Bool) :
    List (Fin n) → BipartiteState n → Except String (Option (BipartiteState n))
  | [], st => .ok (some st)
  | neighbour :: ns, st =>
    let isNeighbourRed := decide (neighbour ∈ st.red)
    let isNeighbourBlue := decide (neighbour ∈ st.blue)
    if (isRed && isNeighbourRed) || (isBlue && isNeighbourBlue) then .ok none
    else if !isNeighbourRed && !isNeighbourBlue then
      match isRed, isBlue with
      | true, false =>
        colourNeighbours isRed isBlue ns
          { st with blue := insert neighbour st.blue, stack := st.stack ++ [neighbour] }
      | false, true =>
        colourNeighbours isRed isBlue ns
          { st with red := insert neighbour st.red, stack := st.stack ++ [neighbour] }
      | _, _ => .error "Invariant doesn't hold"
    else colourNeighbours isRed isBlue ns st

/-- The loop over the neighbours never raises what remains to do. -/
theorem colourNeighbours_pending (isRed isBlue : Bool) : ∀ (ns : List (Fin n))
    (st st' : BipartiteState n), colourNeighbours isRed isBlue ns st = .ok (some st') →
    st'.pending ≤ st.pending
  | [], st, st', h => by cases h; exact le_rfl
  | y :: ns, st, st', h => by
    -- colouring `y` and queueing it lowers what remains by one
    have hpush : ∀ {r b : Finset (Fin n)}, r ∪ b = insert y (st.red ∪ st.blue) →
        y ∉ st.red ∪ st.blue → (⟨r, b, st.stack ++ [y]⟩ : BipartiteState n).pending ≤ st.pending :=
      fun hrb hy => by
        have := (insert y (st.red ∪ st.blue)).card_le_univ
        simp only [BipartiteState.pending, hrb, Finset.card_insert_of_not_mem hy,
          List.length_append, List.length_singleton, Finset.card_univ, Fintype.card_fin] at this ⊢
        omega
    simp only [colourNeighbours] at h
    split_ifs at h with h₁ h₂
    · cases h
    · have hy : y ∉ st.red ∪ st.blue := by simpa using h₂
      split at h
      · exact (colourNeighbours_pending _ _ ns _ st' h).trans (hpush (Finset.union_insert _ _ _) hy)
      · exact (colourNeighbours_pending _ _ ns _ st' h).trans (hpush (Finset.insert_union _ _ _) hy)
      · cases h
    · exact colourNeighbours_pending isRed isBlue ns st st' h

/-- `while let Some(node) = stack.pop_front() { ... }`, then `true`: `Ok(b)` when it returns
`b`, `Err(msg)` when it panics with `msg`. -/
def bipartiteLoop (g : Graph n) (st : BipartiteState n) : Except String Bool :=
  match _hs : st.stack with
  | [] => .ok true
  | node :: rest =>
    let isRed := decide (node ∈ st.red)
    let isBlue := decide (node ∈ st.blue)
    if !(xor isRed isBlue) then .error "assertion failed: is_red ^ is_blue"
    else
      match _hc : colourNeighbours isRed isBlue (g.neighbors node) { st with stack := rest } with
      | .error e => .error e
      | .ok none => .ok false
      | .ok (some st') => bipartiteLoop g st'
termination_by st.pending
decreasing_by
  have := colourNeighbours_pending _ _ _ _ _ _hc
  simp only [BipartiteState.pending, _hs, List.length_cons] at this ⊢
  omega

/-- `is_bipartite_undirected(g, start)`: `Ok(b)` when it returns `b`, `Err(msg)` when it panics
with `msg`. -/
def isBipartiteUndirected (g : Graph n) (start : Fin n) : Except String Bool :=
  bipartiteLoop g ⟨{start}, ∅, [start]⟩

/-- `bipartite_loop` with an empty queue returns `true`. -/
theorem bipartiteLoop_nil {g : Graph n} {st : BipartiteState n} (hs : st.stack = []) :
    bipartiteLoop g st = .ok true := by
  rw [bipartiteLoop]
  split <;> simp_all

section pop

variable {g : Graph n} {st st' : BipartiteState n} {node : Fin n} {rest : List (Fin n)}

/-- A round whose neighbour loop returns `false` ends the search with `false`. -/
theorem bipartiteLoop_of_none (hs : st.stack = node :: rest)
    (hx : ¬ (!(xor (decide (node ∈ st.red)) (decide (node ∈ st.blue)))) = true)
    (h : colourNeighbours (decide (node ∈ st.red)) (decide (node ∈ st.blue)) (g.neighbors node)
      { st with stack := rest } = .ok none) :
    bipartiteLoop g st = .ok false := by
  rw [bipartiteLoop]
  split
  · simp_all
  · rename_i node' rest' hs'
    obtain ⟨rfl, rfl⟩ := List.cons.inj (hs.symm.trans hs')
    simp only [if_neg hx]
    split <;> simp_all

/-- A round whose neighbour loop goes through continues from the state it leaves. -/
theorem bipartiteLoop_of_some (hs : st.stack = node :: rest)
    (hx : ¬ (!(xor (decide (node ∈ st.red)) (decide (node ∈ st.blue)))) = true)
    (h : colourNeighbours (decide (node ∈ st.red)) (decide (node ∈ st.blue)) (g.neighbors node)
      { st with stack := rest } = .ok (some st')) :
    bipartiteLoop g st = bipartiteLoop g st' := by
  rw [bipartiteLoop]
  split
  · simp_all
  · rename_i node' rest' hs'
    obtain ⟨rfl, rfl⟩ := List.cons.inj (hs.symm.trans hs')
    simp only [if_neg hx]
    split <;> simp_all

end pop

/-! ## Colourings and the invariant -/

/-- `colour` 2-colours what `start` reaches properly: the ends of every edge out of a node that
`start` reaches differ.  With a symmetric neighbour relation, what `start` reaches is its
connected component. -/
def ProperColouring (g : Graph n) (start : Fin n) (colour : Fin n → Bool) : Prop :=
  ∀ u v, g.Reach start u → g.Adj u v → colour u ≠ colour v

/-- Along an edge out of what `start` reaches, a proper colouring flips. -/
theorem ProperColouring.flip {g : Graph n} {start x y : Fin n} {colour : Fin n → Bool}
    (hc : ProperColouring g start colour) (hx : g.Reach start x) (hxy : g.Adj x y) :
    colour y = colour start ↔ ¬ colour x = colour start := by
  have := hc x y hx hxy
  revert this
  cases colour x <;> cases colour y <;> cases colour start <;> decide

namespace BipartiteState

/-- `v` has the colour `u` has not. -/
def Opposite (st : BipartiteState n) (u v : Fin n) : Prop :=
  (u ∈ st.red ∧ v ∈ st.blue) ∨ (u ∈ st.blue ∧ v ∈ st.red)

theorem Opposite.mono {st st' : BipartiteState n} {u v : Fin n} (h : st.Opposite u v)
    (hr : st.red ⊆ st'.red) (hb : st.blue ⊆ st'.blue) : st'.Opposite u v := by
  rcases h with ⟨hu, hv⟩ | ⟨hu, hv⟩
  exacts [.inl ⟨hr hu, hb hv⟩, .inr ⟨hb hu, hr hv⟩]

end BipartiteState

/-- The invariant of the search from `start`: the colours are disjoint, `start` is red, every
coloured node is reachable from `start`, the queue holds coloured nodes without repeats, and
every colour is forced: a proper colouring gives a coloured node the colour of `start` exactly
when it is red. -/
structure BipInv (g : Graph n) (start : Fin n) (st : BipartiteState n) : Prop where
  disjoint : Disjoint st.red st.blue
  start_red : start ∈ st.red
  reach : ∀ x, x ∈ st.red ∨ x ∈ st.blue → g.Reach start x
  stack_coloured : ∀ x ∈ st.stack, x ∈ st.red ∨ x ∈ st.blue
  nodup : st.stack.Nodup
  forced : ∀ colour, ProperColouring g start colour → ∀ x, x ∈ st.red ∨ x ∈ st.blue →
    (colour x = colour start ↔ x ∈ st.red)

namespace BipInv

variable {g : Graph n} {start x y : Fin n} {st : BipartiteState n}

theorem init : BipInv g start ⟨{start}, ∅, [start]⟩ := by
  refine ⟨by simp, Finset.mem_singleton_self start, fun x hx => ?_, by simp, by simp,
    fun colour _ x hx => ?_⟩ <;> simp_all [Graph.Reach.refl]

/-- A coloured node has exactly one colour, so the assertion holds. -/
theorem xor_eq_true (I : BipInv g start st) (hx : x ∈ st.red ∨ x ∈ st.blue) :
    xor (decide (x ∈ st.red)) (decide (x ∈ st.blue)) = true := by
  have hd : x ∈ st.red → x ∉ st.blue := fun h => Finset.disjoint_left.1 I.disjoint h
  rcases hx with hx | hx
  · simp [hx, hd hx]
  · simp [hx, show x ∉ st.red from fun h => hd h hx]

/-- Two adjacent nodes of one colour leave no proper colouring. -/
theorem no_colouring (I : BipInv g start st) (hx : x ∈ st.red ∨ x ∈ st.blue) (hxy : g.Adj x y)
    (hsame : (x ∈ st.red ∧ y ∈ st.red) ∨ (x ∈ st.blue ∧ y ∈ st.blue)) :
    ¬ ∃ colour, ProperColouring g start colour := by
  rintro ⟨colour, hc⟩
  have hy : y ∈ st.red ∨ y ∈ st.blue := hsame.imp And.right And.right
  have hflip := hc.flip (I.reach x hx) hxy
  rw [I.forced colour hc y hy, I.forced colour hc x hx] at hflip
  rcases hsame with ⟨hx, hy⟩ | ⟨hx, hy⟩
  · exact hflip.1 hy hx
  · exact Finset.disjoint_left.1 I.disjoint
      (hflip.2 fun h => Finset.disjoint_left.1 I.disjoint h hx) hy

/-- Popping the front of the queue. -/
theorem pop (I : BipInv g start st) (hs : st.stack = x :: rest) :
    BipInv g start { st with stack := rest } ∧ x ∉ rest := by
  have hnd := I.nodup
  rw [hs, List.nodup_cons] at hnd
  exact ⟨⟨I.disjoint, I.start_red, I.reach,
    fun z hz => I.stack_coloured z (hs ▸ List.mem_cons_of_mem x hz), hnd.2, I.forced⟩, hnd.1⟩

/-- Colouring an uncoloured neighbour `y` of a red node blue, at the back of the queue. -/
theorem paintBlue (I : BipInv g start st) (hx : x ∈ st.red) (hxy : g.Adj x y) (hyr : y ∉ st.red)
    (hyb : y ∉ st.blue) :
    BipInv g start { st with blue := insert y st.blue, stack := st.stack ++ [y] } := by
  have hys : y ∉ st.stack := fun h => by simpa [hyr, hyb] using I.stack_coloured y h
  refine ⟨Finset.disjoint_insert_right.2 ⟨hyr, I.disjoint⟩, I.start_red, fun z hz => ?_,
    fun z hz => ?_, List.nodup_append.2 ⟨I.nodup, List.nodup_singleton y, by simpa using hys⟩,
    fun colour hc z hz => ?_⟩
  all_goals dsimp only at hz ⊢
  · by_cases hzy : z = y
    · exact hzy ▸ (I.reach x (.inl hx)).tail hxy
    · exact I.reach z (by simpa [hzy] using hz)
  · rcases List.mem_append.1 hz with hz | hz
    · exact (I.stack_coloured z hz).imp id (Finset.mem_insert_of_mem)
    · exact .inr (by rw [List.mem_singleton.1 hz]; exact Finset.mem_insert_self y _)
  · by_cases hzy : z = y
    · subst hzy
      simpa [hyr, (I.forced colour hc x (.inl hx)).2 hx] using
        hc.flip (I.reach x (.inl hx)) hxy
    · exact I.forced colour hc z (by simpa [hzy] using hz)

/-- Colouring an uncoloured neighbour `y` of a blue node red, at the back of the queue. -/
theorem paintRed (I : BipInv g start st) (hx : x ∈ st.blue) (hxy : g.Adj x y) (hyr : y ∉ st.red)
    (hyb : y ∉ st.blue) :
    BipInv g start { st with red := insert y st.red, stack := st.stack ++ [y] } := by
  have hys : y ∉ st.stack := fun h => by simpa [hyr, hyb] using I.stack_coloured y h
  have hxr : x ∉ st.red := fun h => Finset.disjoint_left.1 I.disjoint h hx
  refine ⟨Finset.disjoint_insert_left.2 ⟨hyb, I.disjoint⟩, Finset.mem_insert_of_mem I.start_red,
    fun z hz => ?_, fun z hz => ?_,
    List.nodup_append.2 ⟨I.nodup, List.nodup_singleton y, by simpa using hys⟩,
    fun colour hc z hz => ?_⟩
  all_goals dsimp only at hz ⊢
  · by_cases hzy : z = y
    · exact hzy ▸ (I.reach x (.inr hx)).tail hxy
    · exact I.reach z (by simpa [hzy] using hz)
  · rcases List.mem_append.1 hz with hz | hz
    · exact (I.stack_coloured z hz).imp Finset.mem_insert_of_mem id
    · exact .inl (by rw [List.mem_singleton.1 hz]; exact Finset.mem_insert_self y _)
  · by_cases hzy : z = y
    · subst hzy
      have hcx : ¬ colour x = colour start := by rw [I.forced colour hc x (.inr hx)]; exact hxr
      simpa [hcx] using hc.flip (I.reach x (.inr hx)) hxy
    · simpa [hzy] using I.forced colour hc z (by simpa [hzy] using hz)

end BipInv

/-- The outer loop: the invariant, and every coloured node off the queue has its neighbours
coloured the other way. -/
structure QueueInv (g : Graph n) (start : Fin n) (st : BipartiteState n) : Prop where
  inv : BipInv g start st
  processed : ∀ z, z ∈ st.red ∨ z ∈ st.blue → z ∉ st.stack → ∀ y, g.Adj z y → st.Opposite z y

/-- The loop over the neighbours of the popped node `x`, of colours `isRed` and `isBlue`: the
invariant, `x` coloured and off the queue, every other coloured node off the queue done, and
the neighbours in `done` coloured the other way. -/
structure NeighbourInv (g : Graph n) (start x : Fin n) (isRed isBlue : Bool)
    (done : List (Fin n)) (st : BipartiteState n) : Prop where
  inv : BipInv g start st
  red_iff : isRed = true ↔ x ∈ st.red
  blue_iff : isBlue = true ↔ x ∈ st.blue
  coloured : x ∈ st.red ∨ x ∈ st.blue
  not_mem : x ∉ st.stack
  processed : ∀ z, z ∈ st.red ∨ z ∈ st.blue → z ∉ st.stack → z ≠ x →
    ∀ y, g.Adj z y → st.Opposite z y
  opposite : ∀ y ∈ done, st.Opposite x y

namespace NeighbourInv

variable {g : Graph n} {start x y : Fin n} {isRed isBlue : Bool} {done : List (Fin n)}
  {st st' : BipartiteState n}

/-- A neighbour already coloured the other way. -/
theorem skip (L : NeighbourInv g start x isRed isBlue done st) (h : st.Opposite x y) :
    NeighbourInv g start x isRed isBlue (done ++ [y]) st :=
  { L with opposite := List.forall_mem_append.2 ⟨L.opposite, List.forall_mem_singleton.2 h⟩ }

/-- A neighbour `y` newly coloured the other way and queued: the colours only grow, by `y`. -/
theorem push (L : NeighbourInv g start x isRed isBlue done st) (I : BipInv g start st')
    (hr : st.red ⊆ st'.red) (hb : st.blue ⊆ st'.blue)
    (hcol : ∀ z, z ∈ st'.red ∨ z ∈ st'.blue → z = y ∨ z ∈ st.red ∨ z ∈ st.blue)
    (hstack : st'.stack = st.stack ++ [y]) (hy : y ∉ st.red ∧ y ∉ st.blue)
    (hxr : x ∈ st'.red ↔ x ∈ st.red) (hxb : x ∈ st'.blue ↔ x ∈ st.blue) (hop : st'.Opposite x y) :
    NeighbourInv g start x isRed isBlue (done ++ [y]) st' := by
  refine ⟨I, L.red_iff.trans hxr.symm, L.blue_iff.trans hxb.symm, L.coloured.imp (@hr x) (@hb x),
    fun h => ?_, fun z hz hzs hzx w hw => ?_, List.forall_mem_append.2
      ⟨fun w hw => (L.opposite w hw).mono hr hb, List.forall_mem_singleton.2 hop⟩⟩
  · rw [hstack, List.mem_append, List.mem_singleton] at h
    rcases h with h | rfl
    exacts [L.not_mem h, by rcases L.coloured with h | h <;> simp_all]
  · rw [hstack, List.mem_append, List.mem_singleton, not_or] at hzs
    rcases hcol z hz with rfl | hz
    · exact absurd rfl hzs.2
    · exact (L.processed z hz hzs.1 hzx w hw).mono hr hb

/-- The red node `x` colours its uncoloured neighbour `y` blue. -/
theorem paintBlue (L : NeighbourInv g start x isRed isBlue done st) (hx : x ∈ st.red)
    (hxy : g.Adj x y) (hy : y ∉ st.red ∧ y ∉ st.blue) :
    NeighbourInv g start x isRed isBlue (done ++ [y])
      { st with blue := insert y st.blue, stack := st.stack ++ [y] } :=
  L.push (L.inv.paintBlue hx hxy hy.1 hy.2) subset_rfl (Finset.subset_insert y _)
    (fun z hz => or_left_comm.1 (by simpa only [Finset.mem_insert] using hz)) rfl hy Iff.rfl
    (by simp [show x ≠ y from fun h => hy.1 (h ▸ hx)]) (.inl ⟨hx, Finset.mem_insert_self y _⟩)

/-- The blue node `x` colours its uncoloured neighbour `y` red. -/
theorem paintRed (L : NeighbourInv g start x isRed isBlue done st) (hx : x ∈ st.blue)
    (hxy : g.Adj x y) (hy : y ∉ st.red ∧ y ∉ st.blue) :
    NeighbourInv g start x isRed isBlue (done ++ [y])
      { st with red := insert y st.red, stack := st.stack ++ [y] } :=
  L.push (L.inv.paintRed hx hxy hy.1 hy.2) (Finset.subset_insert y _) subset_rfl
    (fun z hz => or_assoc.1 (by simpa only [Finset.mem_insert] using hz)) rfl hy
    (by simp [show x ≠ y from fun h => hy.2 (h ▸ hx)]) Iff.rfl
    (.inr ⟨hx, Finset.mem_insert_self y _⟩)

end NeighbourInv

/-! ## The loops -/

/-- What the loop over the neighbours ends in: never a panic, `E` when it returns `false`, and
`Q` of the state when it goes through. -/
def NeighboursPost (E : Prop) (Q : BipartiteState n → Prop) :
    Except String (Option (BipartiteState n)) → Prop
  | .error _ => False
  | .ok none => E
  | .ok (some st) => Q st

section loops

variable {g : Graph n} {start x : Fin n}

/-- **The loop over the neighbours of `x`**: it never panics, returns `false` only when no
proper colouring exists, and otherwise leaves every neighbour of `x` coloured the other way. -/
theorem colourNeighbours_spec : ∀ (isRed isBlue : Bool) (ns done : List (Fin n))
    (st : BipartiteState n),
    g.neighbors x = done ++ ns → NeighbourInv g start x isRed isBlue done st →
    NeighboursPost (¬ ∃ colour, ProperColouring g start colour)
      (NeighbourInv g start x isRed isBlue (g.neighbors x)) (colourNeighbours isRed isBlue ns st)
  | _, _, [], done, st, hns, L => by simpa [colourNeighbours, NeighboursPost, hns] using L
  | isRed, isBlue, y :: ns, done, st, hns, L => by
    have hxy : g.Adj x y := by simp [Graph.Adj, hns]
    have hns' : g.neighbors x = (done ++ [y]) ++ ns := by simp [hns]
    have hdisj := Finset.disjoint_left.1 L.inv.disjoint
    simp only [colourNeighbours]
    split_ifs with h₁ h₂
    · -- `y` has the colour of `x`
      refine L.inv.no_colouring L.coloured hxy ?_
      rcases Bool.or_eq_true_iff.1 h₁ with h | h <;> simp only [Bool.and_eq_true,
        decide_eq_true_eq] at h
      exacts [.inl ⟨L.red_iff.1 h.1, h.2⟩, .inr ⟨L.blue_iff.1 h.1, h.2⟩]
    · -- `y` is uncoloured: it gets the other colour
      simp only [Bool.and_eq_true, Bool.not_eq_true', decide_eq_false_iff_not] at h₂
      rcases L.coloured with hx | hx
      · obtain rfl : isRed = true := L.red_iff.2 hx
        obtain rfl : isBlue = false := Bool.eq_false_iff.2 fun h => hdisj hx (L.blue_iff.1 h)
        exact colourNeighbours_spec _ _ ns _ _ hns' (L.paintBlue hx hxy h₂)
      · obtain rfl : isBlue = true := L.blue_iff.2 hx
        obtain rfl : isRed = false := Bool.eq_false_iff.2 fun h => hdisj (L.red_iff.1 h) hx
        exact colourNeighbours_spec _ _ ns _ _ hns' (L.paintRed hx hxy h₂)
    · -- `y` is coloured the other way already
      refine colourNeighbours_spec isRed isBlue ns (done ++ [y]) st hns' (L.skip ?_)
      simp only [Bool.or_eq_true, Bool.and_eq_true, decide_eq_true_eq, not_or, not_and] at h₁
      simp only [Bool.and_eq_true, Bool.not_eq_true', decide_eq_false_iff_not, not_and,
        not_not] at h₂
      rcases L.coloured with hx | hx
      · exact .inl ⟨hx, h₂ fun hy => h₁.1 (L.red_iff.2 hx) hy⟩
      · exact .inr ⟨hx, by_contra fun hy => h₁.2 (L.blue_iff.2 hx) (h₂ hy)⟩

namespace QueueInv

variable {st : BipartiteState n} {rest : List (Fin n)}

theorem init : QueueInv g start ⟨{start}, ∅, [start]⟩ :=
  ⟨BipInv.init, fun z hz hzs => absurd (by simp_all) hzs⟩

/-- Popping `x` starts the loop over its neighbours. -/
theorem pop (Q : QueueInv g start st) (hs : st.stack = x :: rest) :
    NeighbourInv g start x (decide (x ∈ st.red)) (decide (x ∈ st.blue)) []
      { st with stack := rest } := by
  obtain ⟨I, hx⟩ := Q.inv.pop hs
  refine ⟨I, decide_eq_true_iff, decide_eq_true_iff,
    Q.inv.stack_coloured x (hs ▸ List.mem_cons_self x rest), hx, fun z hz hzs hzx => ?_,
    fun _ h => absurd h (List.not_mem_nil _)⟩
  exact Q.processed z hz (by rw [hs, List.mem_cons, not_or]; exact ⟨hzx, hzs⟩)

/-- Once the queue is empty, everything `start` reaches is coloured. -/
theorem reach_coloured (Q : QueueInv g start st) (hs : st.stack = []) {u : Fin n}
    (hu : g.Reach start u) : u ∈ st.red ∨ u ∈ st.blue := by
  induction hu with
  | refl => exact .inl Q.inv.start_red
  | tail _ hvw ih =>
    rcases Q.processed _ ih (by simp [hs]) _ hvw with ⟨-, h⟩ | ⟨-, h⟩
    exacts [.inr h, .inl h]

/-- Once the queue is empty, red and blue colour what `start` reaches properly. -/
theorem properColouring (Q : QueueInv g start st) (hs : st.stack = []) :
    ProperColouring g start fun u => decide (u ∈ st.red) := by
  intro u v hu huv
  have hd := Finset.disjoint_left.1 Q.inv.disjoint
  rcases Q.processed u (Q.reach_coloured hs hu) (by simp [hs]) v huv with ⟨hu', hv'⟩ | ⟨hu', hv'⟩
  · simp [hu', show v ∉ st.red from fun h => hd h hv']
  · simp [hv', show u ∉ st.red from fun h => hd h hu']

end QueueInv

/-- The loop over the neighbours of `x` done, `x` is done too. -/
theorem NeighbourInv.finish {isRed isBlue : Bool} {st : BipartiteState n}
    (L : NeighbourInv g start x isRed isBlue (g.neighbors x) st) : QueueInv g start st := by
  refine ⟨L.inv, fun z hz hzs y hy => ?_⟩
  by_cases hzx : z = x
  · subst hzx; exact L.opposite y hy
  · exact L.processed z hz hzs hzx y hy

/-- **The search from a state meeting the invariant** returns, without panicking, whether what
`start` reaches has a proper 2-colouring. -/
theorem bipartiteLoop_spec (st : BipartiteState n) (Q : QueueInv g start st) :
    ∃ b, bipartiteLoop g st = .ok b ∧ (b = true ↔ ∃ colour, ProperColouring g start colour) := by
  induction st using bipartiteLoop.induct g with
  | case1 st hs => exact ⟨true, bipartiteLoop_nil hs, iff_of_true rfl ⟨_, Q.properColouring hs⟩⟩
  | case2 st node rest hs isRed isBlue hx =>
    have := Q.inv.xor_eq_true (Q.inv.stack_coloured node (hs ▸ List.mem_cons_self node rest))
    simp_all
  | case3 st node rest hs isRed isBlue _ e he =>
    have := colourNeighbours_spec _ _ (g.neighbors node) [] _ rfl (Q.pop hs)
    rw [he] at this
    exact this.elim
  | case4 st node rest hs isRed isBlue hx hn =>
    have := colourNeighbours_spec _ _ (g.neighbors node) [] _ rfl (Q.pop hs)
    rw [hn] at this
    exact ⟨false, bipartiteLoop_of_none hs hx hn, iff_of_false Bool.false_ne_true this⟩
  | case5 st node rest hs isRed isBlue hx st' hsome ih =>
    have := colourNeighbours_spec _ _ (g.neighbors node) [] _ rfl (Q.pop hs)
    rw [hsome] at this
    rw [bipartiteLoop_of_some hs hx hsome]
    exact ih this.finish

end loops

/-- `is_bipartite_undirected(g, start)` returns, without panicking, whether what `start` reaches
has a proper 2-colouring. -/
theorem exists_isBipartiteUndirected_eq (g : Graph n) (start : Fin n) :
    ∃ b, isBipartiteUndirected g start = .ok b ∧
      (b = true ↔ ∃ colour, ProperColouring g start colour) :=
  bipartiteLoop_spec _ QueueInv.init

/-- **`is_bipartite_undirected` decides 2-colourability.**  For every graph and every `start`
it reaches neither the assertion nor the `panic!`, and returns `true` exactly when what `start`
reaches has a proper 2-colouring.  For an undirected graph, whose neighbour relation is
symmetric, that is the connected component of `start`, and a self-loop in it leaves no proper
colouring.  On a graph where every node reaches every other, the answer does not depend on
`start`. -/
theorem isBipartiteUndirected_spec (g : Graph n) (start : Fin n) :
    (∃ b, isBipartiteUndirected g start = .ok b ∧
      (b = true ↔ ∃ colour, ProperColouring g start colour)) ∧
    ((∀ u v, g.Reach u v) → ∀ start', isBipartiteUndirected g start' = isBipartiteUndirected g start) := by
  refine ⟨exists_isBipartiteUndirected_eq g start, fun hconn start' => ?_⟩
  obtain ⟨b, hb, hiff⟩ := exists_isBipartiteUndirected_eq g start
  obtain ⟨b', hb', hiff'⟩ := exists_isBipartiteUndirected_eq g start'
  have hsame : ∀ colour, ProperColouring g start' colour ↔ ProperColouring g start colour :=
    fun colour => ⟨fun h u v _ => h u v (hconn _ _), fun h u v _ => h u v (hconn _ _)⟩
  rw [hb, hb', Bool.eq_iff_iff.2 (hiff'.trans ((exists_congr hsame).trans hiff.symm))]

/-! ## Directed input -/

/-- The undirected version of `g`: every edge read in both directions. -/
def Graph.undirected (g : Graph n) : Graph n where
  nodeIdentifiers := g.nodeIdentifiers
  neighbors a := g.neighbors a ++ g.incoming a
  incoming a := g.incoming a ++ g.neighbors a
  nodup_nodeIdentifiers := g.nodup_nodeIdentifiers
  mem_nodeIdentifiers := g.mem_nodeIdentifiers
  mem_incoming a b := by simp only [List.mem_append, g.mem_incoming, or_comm]

/-- Three nodes and the edges `1 → 0`, `1 → 2` and `2 → 0`: a triangle once undirected, but
no edge leaves `0`. -/
def arcTriangle : Graph 3 where
  nodeIdentifiers := List.finRange 3
  neighbors := ![[], [0, 2], [0]]
  incoming := ![[1, 2], [], [1]]
  nodup_nodeIdentifiers := List.nodup_finRange 3
  mem_incoming := by decide
  mem_nodeIdentifiers := List.mem_finRange

/-- From `0`, `is_bipartite_undirected` follows no edge of `arcTriangle` and returns `true`;
on its undirected version it meets the odd cycle and returns `false`. -/
theorem isBipartiteUndirected_arcTriangle :
    isBipartiteUndirected arcTriangle 0 = .ok true ∧
      isBipartiteUndirected arcTriangle.undirected 0 = .ok false := by
  refine ⟨by simp [isBipartiteUndirected, bipartiteLoop, colourNeighbours, arcTriangle], ?_⟩
  obtain ⟨b, hb, hiff⟩ := exists_isBipartiteUndirected_eq arcTriangle.undirected 0
  -- the undirected triangle has no proper 2-colouring
  have hadj : ∀ u v : Fin 3, u ≠ v → arcTriangle.undirected.Adj u v := by
    simp [Graph.Adj, Graph.undirected, arcTriangle, Fin.forall_fin_succ]
  have hno : ¬ ∃ colour, ProperColouring arcTriangle.undirected 0 colour := fun ⟨c, hc⟩ => by
    have h01 := hc 0 1 (.refl 0) (hadj 0 1 (by decide))
    have h12 := hc 1 2 (.single (hadj 0 1 (by decide))) (hadj 1 2 (by decide))
    have h02 := hc 0 2 (.refl 0) (hadj 0 2 (by decide))
    revert h01 h12 h02
    cases c 0 <;> cases c 1 <;> cases c 2 <;> decide
  rw [hb, Bool.eq_false_iff.2 fun h => hno (hiff.1 h)]

end Petgraph
