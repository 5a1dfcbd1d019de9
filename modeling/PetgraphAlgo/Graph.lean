import Mathlib.Logic.Relation
import Mathlib.Data.Fintype.Card

/-!
# The graph capabilities the generic algorithms consume

The algorithms of `src/algo/mod.rs` are generic over a graph handle `G` and only use it
through the visitor traits: `IntoNodeIdentifiers`, `IntoNeighbors`,
`IntoNeighborsDirected` (which is what `Reversed(g)` is built from) and the dense
indexing of `NodeIndexable`.  This file bundles those capabilities into one structure,
`Graph n`, for a graph whose node indices are `0 .. n`, and sets up reachability.

Node identifiers are identified with their dense index (`to_index` is the identity),
so a node is a `Fin n`; a visit map keyed by `to_index` is a `Finset (Fin n)`.  The
iteration orders of `node_identifiers()`, `neighbors(a)` and
`neighbors_directed(a, Incoming)` are left arbitrary: every result below holds for all
of them.
-/

namespace Petgraph

/-- A graph as the generic algorithms see it. -/
structure Graph (n : ℕ) where
  /-- `node_identifiers()`, in iteration order. -/
  nodeIdentifiers : List (Fin n)
  /-- `neighbors(a)`: the targets of the edges leaving `a`, in iteration order, with
  one entry per edge. -/
  neighbors : Fin n → List (Fin n)
  /-- `neighbors_directed(a, Incoming)`: the sources of the edges entering `a`. -/
  incoming : Fin n → List (Fin n)
  nodup_nodeIdentifiers : nodeIdentifiers.Nodup
  mem_nodeIdentifiers : ∀ a, a ∈ nodeIdentifiers
  mem_incoming : ∀ a b, a ∈ incoming b ↔ b ∈ neighbors a

namespace Graph

variable {n : ℕ} (g : Graph n)

/-- `Reversed(g)`: the same nodes, every edge read backwards. -/
def reversed : Graph n where
  nodeIdentifiers := g.nodeIdentifiers
  neighbors := g.incoming
  incoming := g.neighbors
  nodup_nodeIdentifiers := g.nodup_nodeIdentifiers
  mem_nodeIdentifiers := g.mem_nodeIdentifiers
  mem_incoming a b := (g.mem_incoming b a).symm

@[simp] theorem reversed_neighbors : g.reversed.neighbors = g.incoming := rfl
@[simp] theorem reversed_incoming : g.reversed.incoming = g.neighbors := rfl
@[simp] theorem reversed_nodeIdentifiers : g.reversed.nodeIdentifiers = g.nodeIdentifiers := rfl
@[simp] theorem reversed_reversed : g.reversed.reversed = g := rfl

/-! ## Edges, reachability, cycles -/

/-- `g` has an edge `a → b`. -/
def Adj (a b : Fin n) : Prop := b ∈ g.neighbors a

/-- `b` is reachable from `a` by a walk of length zero or more. -/
def Reach : Fin n → Fin n → Prop := Relation.ReflTransGen g.Adj

/-- `a` and `b` lie in one strongly connected component. -/
def SameScc (a b : Fin n) : Prop := g.Reach a b ∧ g.Reach b a

/-- `g` has no directed cycle; a self-loop is a cycle. -/
def Acyclic : Prop := ∀ a, ¬ Relation.TransGen g.Adj a a

variable {g}

theorem adj_reversed {a b : Fin n} : g.reversed.Adj a b ↔ g.Adj b a := g.mem_incoming b a

theorem reach_reversed {a b : Fin n} : g.reversed.Reach a b ↔ g.Reach b a := by
  have : g.reversed.Adj = Function.swap g.Adj := by
    funext a b; exact propext adj_reversed
  rw [Reach, this, Relation.reflTransGen_swap]; rfl

@[refl] theorem Reach.refl (a : Fin n) : g.Reach a a := Relation.ReflTransGen.refl

theorem Reach.trans {a b c : Fin n} (h₁ : g.Reach a b) (h₂ : g.Reach b c) : g.Reach a c :=
  Relation.ReflTransGen.trans h₁ h₂

theorem Reach.single {a b : Fin n} (h : g.Adj a b) : g.Reach a b :=
  Relation.ReflTransGen.single h

theorem Reach.tail {a b c : Fin n} (h₁ : g.Reach a b) (h₂ : g.Adj b c) : g.Reach a c :=
  Relation.ReflTransGen.tail h₁ h₂

theorem Reach.head {a b c : Fin n} (h₁ : g.Adj a b) (h₂ : g.Reach b c) : g.Reach a c :=
  Relation.ReflTransGen.head h₁ h₂

theorem SameScc.refl (a : Fin n) : g.SameScc a a := ⟨.refl a, .refl a⟩

theorem SameScc.symm {a b : Fin n} (h : g.SameScc a b) : g.SameScc b a := ⟨h.2, h.1⟩

theorem SameScc.trans {a b c : Fin n} (h₁ : g.SameScc a b) (h₂ : g.SameScc b c) :
    g.SameScc a c :=
  ⟨h₁.1.trans h₂.1, h₂.2.trans h₁.2⟩

theorem sameScc_reversed {a b : Fin n} : g.reversed.SameScc a b ↔ g.SameScc a b := by
  simp only [SameScc, reach_reversed, and_comm]

/-- A node on a walk between two nodes of one component is in that component. -/
theorem SameScc.of_reach {a b c : Fin n} (hab : g.Reach a b) (hbc : g.Reach b c)
    (hca : g.Reach c a) : g.SameScc a b :=
  ⟨hab, hbc.trans hca⟩

/-- A walk back to its start through an edge is a cycle. -/
theorem not_acyclic_of_adj_reach {a b : Fin n} (hab : g.Adj a b) (hba : g.Reach b a) :
    ¬ g.Acyclic := fun h =>
  h a (Relation.TransGen.head'_iff.2 ⟨b, hab, hba⟩)

/-- In an acyclic graph a strongly connected component is a single node. -/
theorem Acyclic.eq_of_sameScc (h : g.Acyclic) {a b : Fin n} (hab : g.SameScc a b) : a = b := by
  rcases Relation.ReflTransGen.cases_head hab.1 with rfl | ⟨c, hac, hcb⟩
  · rfl
  · exact absurd h (not_acyclic_of_adj_reach hac (hcb.trans hab.2))

end Graph

end Petgraph
