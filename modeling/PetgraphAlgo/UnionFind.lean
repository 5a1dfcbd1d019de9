import Mathlib.Data.Fintype.Card

/-!
# `UnionFind`

`min_spanning_tree` tracks the pieces of the forest it grows with a `UnionFind<usize>`.  Its
code is not among the sources, so it is modelled from the spec: a partition of the indices
`0 .. n` into sets, each named by a representative that `find` returns, where `union(a, b)`
merges the sets of `a` and `b` and returns `true` exactly when they were two sets.  The
representatives are kept as a function whose every value is a fixed point; a merge renames
the set of `b` after the representative of `a`.

Main results:
* `UnionFind.rep_union_eq_iff`: who shares a representative after `union(a, b)`;
* `UnionFind.classes_union`: a merge removes exactly one set.
-/

namespace Petgraph

variable {n : ℕ}

/-- Modelled from the spec: `UnionFind<usize>` over `0 .. n`, as the representative of each
element, every representative being its own. -/
structure UnionFind (n : ℕ) where
  /-- `find(x)`. -/
  rep : Fin n → Fin n
  rep_rep : ∀ x, rep (rep x) = rep x

namespace UnionFind

/-- Modelled from the spec: `UnionFind::new(n)`, every element alone. -/
def new : UnionFind n := ⟨id, fun _ => rfl⟩

/-- Modelled from the spec: `union(a, b)` merges the sets of `a` and `b`, returning `true`
exactly when they were different. -/
def union (u : UnionFind n) (a b : Fin n) : Bool × UnionFind n :=
  if h : u.rep a = u.rep b then (false, u)
  else
    (true, ⟨fun x => if u.rep x = u.rep b then u.rep a else u.rep x, fun x => by
      by_cases hx : u.rep x = u.rep b <;> simp [hx, u.rep_rep, h]⟩)

/-- The number of sets. -/
def classes (u : UnionFind n) : ℕ := (Finset.univ.image u.rep).card

/-- Modelled from the spec: `into_labeling()`, the representative of each element, in index
order. -/
def intoLabeling (u : UnionFind n) : List (Fin n) := List.ofFn u.rep

variable {u : UnionFind n} {a b x y : Fin n}

@[simp] theorem rep_new : (new : UnionFind n).rep x = x := rfl

@[simp] theorem classes_new : (new : UnionFind n).classes = n := by
  simp [classes, new]

/-- The labels take as many values as there are sets. -/
theorem card_toFinset_intoLabeling : u.intoLabeling.toFinset.card = u.classes := by
  congr 1
  ext r
  simp [intoLabeling, List.mem_ofFn]

theorem union_of_eq (h : u.rep a = u.rep b) : u.union a b = (false, u) := by
  simp [union, h]

theorem union_fst : (u.union a b).1 = true ↔ u.rep a ≠ u.rep b := by
  by_cases h : u.rep a = u.rep b <;> simp [union, h]

theorem rep_union_of_ne (h : u.rep a ≠ u.rep b) (x : Fin n) :
    (u.union a b).2.rep x = if u.rep x = u.rep b then u.rep a else u.rep x := by
  simp [union, h]

/-- After `union(a, b)`, two elements share a set when they did, or when one was with `a` and
the other with `b`. -/
theorem rep_union_eq_iff : (u.union a b).2.rep x = (u.union a b).2.rep y ↔
    u.rep x = u.rep y ∨ (u.rep x = u.rep a ∧ u.rep y = u.rep b) ∨
      (u.rep x = u.rep b ∧ u.rep y = u.rep a) := by
  by_cases h : u.rep a = u.rep b
  · rw [union_of_eq h]
    constructor
    · exact .inl
    · rintro (hxy | ⟨hx, hy⟩ | ⟨hx, hy⟩) <;> simp_all
  · simp only [rep_union_of_ne h]
    by_cases hx : u.rep x = u.rep b <;> by_cases hy : u.rep y = u.rep b <;> simp_all [eq_comm]

/-- A merge removes exactly one set. -/
theorem classes_union (h : u.rep a ≠ u.rep b) : (u.union a b).2.classes + 1 = u.classes := by
  unfold classes
  have himage : Finset.univ.image (u.union a b).2.rep = (Finset.univ.image u.rep).erase (u.rep b) := by
    ext r
    simp only [Finset.mem_image, Finset.mem_univ, true_and, Finset.mem_erase, rep_union_of_ne h]
    constructor
    · rintro ⟨x, rfl⟩
      by_cases hx : u.rep x = u.rep b
      · exact ⟨by simp [hx, h], a, by simp [hx]⟩
      · exact ⟨by simp [hx], x, by simp [hx]⟩
    · rintro ⟨hr, x, rfl⟩
      exact ⟨x, by simp [hr]⟩
  rw [himage, Finset.card_erase_add_one (Finset.mem_image_of_mem _ (Finset.mem_univ b))]

end UnionFind

end Petgraph
