import PetgraphAlgo.Graph
import Mathlib.Data.Finset.Card

/-!
# The traversal workspaces: `Dfs` and `DfsPostOrder`

`toposort`, `kosaraju_scc` and `has_path_connecting` drive petgraph's `visit::Dfs` and
`visit::DfsPostOrder`, whose code is not under `src/`.  They are modelled here from the
spec ("a reusable {explicit stack, visited-set} pair"; a node is discovered the first time
it is visited off the stack) and from the loop that `toposort` inlines, which is the body
of `DfsPostOrder::next` verbatim.

The explicit stack is a list whose head is the top (`stack.last()` in the source).
A visit map is a `Finset (Fin n)`; `visit(x)` returns whether `x` was new, so
`if visit(x)` reads `if x ∉ d` and inserts `x`.
-/

namespace Petgraph

variable {n : ℕ}

/-- The loop `for succ in g.neighbors(nx) { if !discovered.is_visited(&succ) { stack.push(succ) } }`
shared by the traversals. -/
def pushUnvisited (d : Finset (Fin n)) (succs stack : List (Fin n)) : List (Fin n) :=
  succs.foldl (fun st w => if w ∈ d then st else w :: st) stack

theorem pushUnvisited_eq (d : Finset (Fin n)) (succs stack : List (Fin n)) :
    pushUnvisited d succs stack = (succs.filter (fun w => w ∉ d)).reverse ++ stack := by
  induction succs generalizing stack with
  | nil => rfl
  | cons w ws ih =>
    simp only [pushUnvisited, List.foldl_cons] at ih ⊢
    by_cases hw : w ∈ d <;> simp [hw, ih]

@[simp] theorem mem_pushUnvisited {d : Finset (Fin n)} {succs stack : List (Fin n)} {x : Fin n} :
    x ∈ pushUnvisited d succs stack ↔ (x ∈ succs ∧ x ∉ d) ∨ x ∈ stack := by
  simp [pushUnvisited_eq]

/-- `pushUnvisited` only puts undiscovered neighbours on top of the stack. -/
theorem pushUnvisited_spec (d : Finset (Fin n)) (succs stack : List (Fin n)) :
    ∃ pushed, pushUnvisited d succs stack = pushed ++ stack ∧
      ∀ x, x ∈ pushed ↔ x ∈ succs ∧ x ∉ d :=
  ⟨_, pushUnvisited_eq d succs stack, fun x => by simp⟩

/-! ## `Dfs` -/

/-- `visit::Dfs`: the stack and the `discovered` visit map. -/
structure Dfs (n : ℕ) where
  stack : List (Fin n)
  discovered : Finset (Fin n)

/-- `Dfs::empty` (and `DfsSpace::new`, `DfsSpace::default`). -/
def Dfs.empty : Dfs n := ⟨[], ∅⟩

/-- Modelled from the spec: `Dfs::reset` of petgraph's `visit` module, which clears the stack
and the discovered map, whatever they held. -/
def Dfs.reset (_dfs : Dfs n) : Dfs n := Dfs.empty

/-- Modelled from the spec: `Dfs::move_to` keeps the discovered map, clears the stack and
restarts from `start`. -/
def Dfs.moveTo (dfs : Dfs n) (start : Fin n) : Dfs n := ⟨[start], dfs.discovered⟩

/-- Modelled from the spec: `Dfs::next` of petgraph's `visit` module.  Pop nodes until
one is newly discovered, push its undiscovered neighbours and return it. -/
def Dfs.next (g : Graph n) (dfs : Dfs n) : Option (Fin n) × Dfs n :=
  loop dfs.discovered dfs.stack
where
  /-- `while let Some(node) = self.stack.pop() { if self.discovered.visit(node) { .. } }` -/
  loop (d : Finset (Fin n)) : List (Fin n) → Option (Fin n) × Dfs n
    | [] => (none, ⟨[], d⟩)
    | x :: s =>
      if x ∉ d then (some x, ⟨pushUnvisited (insert x d) (g.neighbors x) s, insert x d⟩)
      else loop d s

/-- `Dfs::next` pops discovered nodes off the top, then either finds the stack empty or
discovers the node below them. -/
theorem Dfs.next_spec (g : Graph n) (s : List (Fin n)) (d : Finset (Fin n)) :
    (Dfs.next g ⟨s, d⟩ = (none, ⟨[], d⟩) ∧ ∀ x ∈ s, x ∈ d) ∨
    ∃ s₁ x s₂, s = s₁ ++ x :: s₂ ∧ (∀ y ∈ s₁, y ∈ d) ∧ x ∉ d ∧
      Dfs.next g ⟨s, d⟩ = (some x, ⟨pushUnvisited (insert x d) (g.neighbors x) s₂, insert x d⟩) := by
  simp only [Dfs.next]
  induction s with
  | nil => exact .inl ⟨rfl, by simp⟩
  | cons x s ih =>
    by_cases hx : x ∈ d
    · rcases ih with ⟨h, hs⟩ | ⟨s₁, y, s₂, rfl, h₁, hy, h⟩
      · exact .inl ⟨by simpa [Dfs.next.loop, hx] using h, by simpa [hx] using hs⟩
      · exact .inr ⟨x :: s₁, y, s₂, rfl, by simpa [hx] using h₁, hy,
          by simpa [Dfs.next.loop, hx] using h⟩
    · exact .inr ⟨[], x, s, rfl, by simp, hx, by simp [Dfs.next.loop, hx]⟩

theorem Dfs.card_next_some {g : Graph n} {dfs dfs' : Dfs n} {x : Fin n}
    (h : Dfs.next g dfs = (some x, dfs')) :
    dfs'.discovered.card = dfs.discovered.card + 1 ∧ dfs.discovered.card < n := by
  obtain ⟨s, d⟩ := dfs
  rcases Dfs.next_spec g s d with ⟨h', -⟩ | ⟨s₁, y, s₂, -, -, hy, h'⟩
  · rw [h'] at h; cases h
  · rw [h'] at h; cases h
    refine ⟨Finset.card_insert_of_not_mem hy, ?_⟩
    simpa using Finset.card_lt_univ_of_not_mem hy

/-- The loop `while let Some(nx) = dfs.next(g) { out.push(nx) }`: run the traversal to
the end, appending the nodes it discovers to `out`. -/
def Dfs.drain (g : Graph n) (dfs : Dfs n) (out : List (Fin n)) : List (Fin n) × Dfs n :=
  match h : Dfs.next g dfs with
  | (none, dfs') => (out, dfs')
  | (some x, dfs') => Dfs.drain g dfs' (out ++ [x])
termination_by n - dfs.discovered.card
decreasing_by have := Dfs.card_next_some h; omega

/-! ## `DfsPostOrder` -/

/-- `visit::DfsPostOrder`: the stack and the `discovered` and `finished` visit maps. -/
structure DfsPostOrder (n : ℕ) where
  stack : List (Fin n)
  discovered : Finset (Fin n)
  finished : Finset (Fin n)

/-- `DfsPostOrder::empty`. -/
def DfsPostOrder.empty : DfsPostOrder n := ⟨[], ∅, ∅⟩

/-- `DfsPostOrder::move_to`. -/
def DfsPostOrder.moveTo (dfs : DfsPostOrder n) (start : Fin n) : DfsPostOrder n :=
  ⟨[start], dfs.discovered, dfs.finished⟩

theorem card_insert_lt {d : Finset (Fin n)} {x : Fin n} (hx : x ∉ d) :
    n - (insert x d).card < n - d.card := by
  have h₁ := Finset.card_insert_of_not_mem hx
  have h₂ : d.card < n := by simpa using Finset.card_lt_univ_of_not_mem hx
  omega

/-- Modelled from the spec: `DfsPostOrder::next` of petgraph's `visit` module, whose loop
`toposort` inlines.  The first time a node is on top it is discovered and its
undiscovered neighbours are pushed over it; the second time it is popped, and returned
if it was not finished yet. -/
def DfsPostOrder.next (g : Graph n) : DfsPostOrder n → Option (Fin n) × DfsPostOrder n
  | ⟨[], d, f⟩ => (none, ⟨[], d, f⟩)
  | ⟨x :: s, d, f⟩ =>
    if x ∉ d then
      DfsPostOrder.next g ⟨pushUnvisited (insert x d) (g.neighbors x) (x :: s), insert x d, f⟩
    else if x ∉ f then (some x, ⟨s, d, insert x f⟩)
    else DfsPostOrder.next g ⟨s, d, f⟩
termination_by st => (n - st.discovered.card, st.stack.length)
decreasing_by
  · exact Prod.Lex.left _ _ (card_insert_lt ‹_›)
  · exact Prod.Lex.right _ (by simp)

theorem DfsPostOrder.next_none {g : Graph n} {st : DfsPostOrder n}
    (h : (DfsPostOrder.next g st).1 = none) : (DfsPostOrder.next g st).2.stack = [] := by
  induction st using DfsPostOrder.next.induct g with
  | case1 => simp [DfsPostOrder.next]
  | case2 x s d f hx ih => rw [DfsPostOrder.next, if_pos hx] at h ⊢; exact ih h
  | case3 x s d f hx hf => rw [DfsPostOrder.next, if_neg hx, if_pos hf] at h; cases h
  | case4 x s d f hx hf ih => rw [DfsPostOrder.next, if_neg hx, if_neg hf] at h ⊢; exact ih h

theorem DfsPostOrder.next_some {g : Graph n} {st : DfsPostOrder n} {x : Fin n}
    (h : (DfsPostOrder.next g st).1 = some x) :
    x ∉ st.finished ∧ (DfsPostOrder.next g st).2.finished = insert x st.finished := by
  induction st using DfsPostOrder.next.induct g with
  | case1 => simp [DfsPostOrder.next] at h
  | case2 y s d f hy ih => rw [DfsPostOrder.next, if_pos hy] at h ⊢; exact ih h
  | case3 y s d f hy hf =>
    rw [DfsPostOrder.next, if_neg hy, if_pos hf] at h ⊢; cases h; exact ⟨hf, rfl⟩
  | case4 y s d f hy hf ih => rw [DfsPostOrder.next, if_neg hy, if_neg hf] at h ⊢; exact ih h

theorem DfsPostOrder.discovered_subset_next (g : Graph n) (st : DfsPostOrder n) :
    st.discovered ⊆ (DfsPostOrder.next g st).2.discovered := by
  induction st using DfsPostOrder.next.induct g with
  | case1 => simp [DfsPostOrder.next]
  | case2 x s d f hx ih =>
    rw [DfsPostOrder.next, if_pos hx]; exact (Finset.subset_insert x d).trans ih
  | case3 x s d f hx hf => rw [DfsPostOrder.next, if_neg hx, if_pos hf]
  | case4 x s d f hx hf ih => rw [DfsPostOrder.next, if_neg hx, if_neg hf]; exact ih

/-- The first call of `next` after `move_to(start)` discovers `start`. -/
theorem DfsPostOrder.mem_discovered_next (g : Graph n) (d f : Finset (Fin n)) (i : Fin n)
    (s : List (Fin n)) : i ∈ (DfsPostOrder.next g ⟨i :: s, d, f⟩).2.discovered := by
  by_cases hi : i ∈ d
  · exact DfsPostOrder.discovered_subset_next g _ hi
  · rw [DfsPostOrder.next, if_pos hi]
    exact DfsPostOrder.discovered_subset_next g _ (Finset.mem_insert_self i d)

/-- The loop `while let Some(nx) = dfs.next(g) { out.push(nx) }` over a post-order
traversal. -/
def DfsPostOrder.drain (g : Graph n) (dfs : DfsPostOrder n) (out : List (Fin n)) :
    List (Fin n) × DfsPostOrder n :=
  match h : DfsPostOrder.next g dfs with
  | (none, dfs') => (out, dfs')
  | (some x, dfs') => DfsPostOrder.drain g dfs' (out ++ [x])
termination_by n - dfs.finished.card
decreasing_by
  have hs := DfsPostOrder.next_some (congrArg Prod.fst h)
  rw [h] at hs
  exact hs.2 ▸ card_insert_lt hs.1

theorem DfsPostOrder.discovered_subset_drain (g : Graph n) (st : DfsPostOrder n)
    (out : List (Fin n)) : st.discovered ⊆ (DfsPostOrder.drain g st out).2.discovered := by
  induction st, out using DfsPostOrder.drain.induct g with
  | case1 st out st' h =>
    have hd := DfsPostOrder.discovered_subset_next g st
    rw [h] at hd
    rw [DfsPostOrder.drain, h]; exact hd
  | case2 st out x st' h ih =>
    have hd := DfsPostOrder.discovered_subset_next g st
    rw [h] at hd
    rw [DfsPostOrder.drain, h]; exact hd.trans ih

/-- Draining after `move_to(i)` discovers `i`. -/
theorem DfsPostOrder.mem_discovered_drain (g : Graph n) (st : DfsPostOrder n) (i : Fin n)
    (out : List (Fin n)) : i ∈ (DfsPostOrder.drain g (st.moveTo i) out).2.discovered := by
  have hi : i ∈ (DfsPostOrder.next g (st.moveTo i)).2.discovered :=
    DfsPostOrder.mem_discovered_next g st.discovered st.finished i []
  rw [DfsPostOrder.drain]
  split <;> rename_i h <;> rw [h] at hi
  · exact hi
  · exact DfsPostOrder.discovered_subset_drain g _ _ hi

end Petgraph
