import Mathlib.Algebra.Order.Monoid.WithTop
import Mathlib.Algebra.Order.Group.Defs
import Mathlib.Algebra.BigOperators.Group.List
import Mathlib.Data.Fintype.Card
import Mathlib.Logic.Relation

/-!
# Weighted graphs, walks and cycle removal

`bellman_ford` (`src/algo/mod.rs`) and `astar` (`src/astar.rs`) read a graph through
`IntoEdges`: `edges(a)` yields edge references with `source()`, `target()`, `weight()` and
`id()`.  `Network n E` bundles that with `node_identifiers()` for a directed graph on the
dense indices `0 .. n` whose edge weights have type `E`.  A walk is a list of edge
references, and its cost under an `edge_cost` function is the sum of the costs.

The main result is cycle removal (`exists_simple_walk_le`): when no cycle of negative cost
is reachable from `s` along a walk of finite cost, every walk from `s` can be replaced by one
that visits no node twice, and so has fewer than `n` edges, and costs no more.  This is what
makes `n - 1` relaxation sweeps enough for Bellman-Ford.

Both algorithms also keep a predecessor map (`predecessor`, `came_from`).  While its links
are acyclic, following them from any node ends at a node without one
(`PredAcyclic.exists_chain`), and when each link is an edge whose cost is the difference of
a potential, the chain read backwards is a walk costing that difference (`walk_of_chain`).
-/

namespace Petgraph

/-- An edge reference: `id()`, `source()`, `target()`, `weight()`. -/
structure EdgeRef (n : ℕ) (E : Type) where
  id : ℕ
  source : Fin n
  target : Fin n
  weight : E
  deriving DecidableEq, Repr

/-- A directed graph as `bellman_ford` and `astar` see it. -/
structure Network (n : ℕ) (E : Type) where
  /-- `node_identifiers()`, in iteration order. -/
  nodeIdentifiers : List (Fin n)
  /-- `edges(a)`: the edges leaving `a`, in iteration order. -/
  edges : Fin n → List (EdgeRef n E)
  nodup_nodeIdentifiers : nodeIdentifiers.Nodup
  mem_nodeIdentifiers : ∀ a, a ∈ nodeIdentifiers
  source_edges : ∀ a, ∀ e ∈ edges a, e.source = a

namespace Network

variable {n : ℕ} {E K : Type} (g : Network n E)

/-! ## Walks -/

/-- `g.IsWalk a p b`: the edges `p` lead from `a` to `b`, each one leaving the node the
previous one entered. -/
def IsWalk : Fin n → List (EdgeRef n E) → Fin n → Prop
  | a, [], b => a = b
  | a, e :: p, b => e ∈ g.edges a ∧ IsWalk e.target p b

instance decidableIsWalk [DecidableEq E] : ∀ a p b, Decidable (g.IsWalk a p b)
  | a, [], b => inferInstanceAs (Decidable (a = b))
  | a, e :: p, b =>
    have := decidableIsWalk e.target p b
    inferInstanceAs (Decidable (e ∈ g.edges a ∧ g.IsWalk e.target p b))

/-- The nodes a walk from `a` passes through, `a` included. -/
def walkNodes (a : Fin n) (p : List (EdgeRef n E)) : List (Fin n) :=
  a :: p.map EdgeRef.target

/-- The total cost of a walk under `edge_cost`. -/
def walkCost [Add K] [Zero K] (c : EdgeRef n E → K) (p : List (EdgeRef n E)) : K :=
  (p.map c).sum

variable {g}

@[simp] theorem isWalk_nil {a b : Fin n} : g.IsWalk a [] b ↔ a = b := Iff.rfl

@[simp] theorem isWalk_cons {a b : Fin n} {e : EdgeRef n E} {p : List (EdgeRef n E)} :
    g.IsWalk a (e :: p) b ↔ e ∈ g.edges a ∧ g.IsWalk e.target p b := Iff.rfl

theorem isWalk_append {a c : Fin n} {p q : List (EdgeRef n E)} :
    g.IsWalk a (p ++ q) c ↔ ∃ b, g.IsWalk a p b ∧ g.IsWalk b q c := by
  induction p generalizing a with
  | nil => simp
  | cons e p ih => simp [ih, and_assoc]

/-- A walk ending in the edge `e` is a walk to `e.source` followed by `e`. -/
theorem isWalk_concat {a c : Fin n} {p : List (EdgeRef n E)} {e : EdgeRef n E} :
    g.IsWalk a (p ++ [e]) c ↔ g.IsWalk a p e.source ∧ e ∈ g.edges e.source ∧ e.target = c := by
  rw [isWalk_append]
  constructor
  · rintro ⟨b, hp, he, rfl⟩
    obtain rfl := g.source_edges b e he
    exact ⟨hp, he, rfl⟩
  · rintro ⟨hp, he, rfl⟩
    exact ⟨_, hp, he, rfl⟩

theorem walkNodes_cons (a : Fin n) (e : EdgeRef n E) (p : List (EdgeRef n E)) :
    walkNodes a (e :: p) = a :: walkNodes e.target p := rfl

theorem walkNodes_append (a : Fin n) (p q : List (EdgeRef n E)) :
    walkNodes a (p ++ q) = walkNodes a p ++ q.map EdgeRef.target := by
  simp [walkNodes]

/-- A walk through `b` splits at `b`. -/
theorem IsWalk.split {a b c : Fin n} {p : List (EdgeRef n E)} (hp : g.IsWalk a p c)
    (hb : b ∈ walkNodes a p) :
    ∃ p₁ p₂, p = p₁ ++ p₂ ∧ g.IsWalk a p₁ b ∧ g.IsWalk b p₂ c := by
  induction p generalizing a with
  | nil =>
    obtain rfl : b = a := by simpa [walkNodes] using hb
    exact ⟨[], [], rfl, rfl, hp⟩
  | cons e p ih =>
    rw [walkNodes_cons, List.mem_cons] at hb
    rcases hb with rfl | hb
    · exact ⟨[], e :: p, rfl, rfl, hp⟩
    · obtain ⟨p₁, p₂, rfl, h₁, h₂⟩ := ih hp.2 hb
      exact ⟨e :: p₁, p₂, rfl, ⟨hp.1, h₁⟩, h₂⟩

/-- A walk that visits no node twice has fewer than `n` edges. -/
theorem length_lt_of_nodup {a : Fin n} {p : List (EdgeRef n E)} (h : (walkNodes a p).Nodup) :
    p.length < n := by
  simpa [walkNodes] using h.length_le_card

@[simp] theorem walkCost_nil [AddMonoid K] (c : EdgeRef n E → K) : walkCost c [] = 0 := rfl

@[simp] theorem walkCost_cons [AddMonoid K] (c : EdgeRef n E → K) (e : EdgeRef n E)
    (p : List (EdgeRef n E)) : walkCost c (e :: p) = c e + walkCost c p := by
  simp [walkCost]

@[simp] theorem walkCost_append [AddMonoid K] (c : EdgeRef n E → K) (p q : List (EdgeRef n E)) :
    walkCost c (p ++ q) = walkCost c p + walkCost c q := by
  simp [walkCost]

/-- A walk along edges of non-negative cost costs at least `0`. -/
theorem walkCost_nonneg [OrderedAddCommMonoid K] {c : EdgeRef n E → K}
    (hc : ∀ u, ∀ e ∈ g.edges u, 0 ≤ c e) {a b : Fin n} {p : List (EdgeRef n E)}
    (hp : g.IsWalk a p b) : 0 ≤ walkCost c p := by
  induction p generalizing a with
  | nil => simp
  | cons e p ih => simpa using add_nonneg (hc a e hp.1) (ih hp.2)

/-- A walk along edges of finite cost has finite cost. -/
theorem walkCost_ne_top {α : Type} [AddMonoid α] {c : EdgeRef n E → WithTop α}
    (hc : ∀ u, ∀ e ∈ g.edges u, c e ≠ ⊤) {a b : Fin n} {p : List (EdgeRef n E)}
    (hp : g.IsWalk a p b) : walkCost c p ≠ ⊤ := by
  induction p generalizing a with
  | nil => exact WithTop.zero_ne_top
  | cons e p ih => rw [walkCost_cons]; exact WithTop.add_ne_top.2 ⟨hc a e hp.1, ih hp.2⟩

variable (g) in
/-- `path` lists the nodes of a walk from `a` to a node satisfying `isGoal`, and no walk from
`a` to any such node costs less. -/
def IsCheapestGoalPath [AddMonoid K] [LE K] (c : EdgeRef n E → K) (a : Fin n)
    (isGoal : Fin n → Bool) (path : List (Fin n)) : Prop :=
  ∃ t q, isGoal t = true ∧ g.IsWalk a q t ∧ walkNodes a q = path ∧
    ∀ t' q', isGoal t' = true → g.IsWalk a q' t' → walkCost c q ≤ walkCost c q'

/-! ## Cycle removal -/

section CycleRemoval

variable {α : Type} [LinearOrderedAddCommGroup α] (g) (c : EdgeRef n E → WithTop α)

/-- `b` is reachable from `a` along a walk of finite cost. -/
def ReachFinite (a b : Fin n) : Prop := ∃ p, g.IsWalk a p b ∧ walkCost c p ≠ ⊤

/-- A cycle of negative cost that `s` reaches along a walk of finite cost. -/
def NegCycleFrom (s : Fin n) : Prop :=
  ∃ x, g.ReachFinite c s x ∧ ∃ cyc, g.IsWalk x cyc x ∧ walkCost c cyc < 0

variable {g c}

/-- **Cycle removal.**  Without a negative cycle reachable along finite walks, every walk
from `s` can be traded for one that visits no node twice and costs no more.  Proof by
induction from the end of the walk: when the next edge closes a loop, the loop is a
cycle that `s` reaches, so it costs at least `0` and can be cut out. -/
theorem exists_simple_walk_le {s b : Fin n} {p : List (EdgeRef n E)}
    (hneg : ¬ g.NegCycleFrom c s) (hp : g.IsWalk s p b) :
    ∃ q, g.IsWalk s q b ∧ (walkNodes s q).Nodup ∧ walkCost c q ≤ walkCost c p := by
  induction p using List.reverseRecOn generalizing b with
  | nil => exact ⟨[], hp, List.nodup_singleton s, le_rfl⟩
  | append_singleton p e ih =>
    obtain ⟨hps, he, rfl⟩ := isWalk_concat.1 hp
    obtain ⟨q, hq, hnd, hle⟩ := ih hps
    by_cases hb : e.target ∈ walkNodes s q
    · obtain ⟨q₁, q₂, rfl, hq₁, hq₂⟩ := hq.split hb
      have hcyc : g.IsWalk e.target (q₂ ++ [e]) e.target := isWalk_concat.2 ⟨hq₂, he, rfl⟩
      refine ⟨q₁, hq₁, (walkNodes_append s q₁ q₂ ▸ hnd).of_append_left, ?_⟩
      have hcut : walkCost c q₁ ≤ walkCost c q₁ + walkCost c (q₂ ++ [e]) := by
        by_cases htop : walkCost c q₁ = ⊤
        · simp [htop]
        · exact le_add_of_nonneg_right (not_lt.1 fun h => hneg ⟨_, ⟨q₁, hq₁, htop⟩, _, hcyc, h⟩)
      calc walkCost c q₁ ≤ walkCost c q₁ + walkCost c (q₂ ++ [e]) := hcut
        _ = walkCost c (q₁ ++ q₂) + c e := by simp [add_assoc]
        _ ≤ walkCost c (p ++ [e]) := (add_le_add_right hle (c e)).trans_eq (by simp)
    · refine ⟨q ++ [e], isWalk_concat.2 ⟨hq, he, rfl⟩, ?_, by
        rw [walkCost_append, walkCost_append]; exact add_le_add_right hle _⟩
      rw [walkNodes_append, List.nodup_append]
      simpa [hb] using hnd

end CycleRemoval

/-! ## Predecessor maps -/

section Pred

variable (pred : Fin n → Option (Fin n))

/-- `PredLink pred x y`: `pred[x] = Some(y)`. -/
def PredLink (x y : Fin n) : Prop := pred x = some y

/-- Following the links never returns to where it started. -/
def PredAcyclic : Prop := ∀ v, ¬ Relation.TransGen (PredLink pred) v v

variable {pred}

theorem reflTransGen_of_mem_chain {R : Fin n → Fin n → Prop} {v x : Fin n} :
    ∀ {rest : List (Fin n)}, (v :: rest).Chain' R → x ∈ v :: rest → Relation.ReflTransGen R v x
  | [], _, hx => by obtain rfl := List.mem_singleton.1 hx; exact .refl
  | u :: rest, h, hx => by
    obtain ⟨hvu, h⟩ := List.chain'_cons.1 h
    rcases List.mem_cons.1 hx with rfl | hx
    · exact .refl
    · exact .head hvu (reflTransGen_of_mem_chain h hx)

/-- The order in which the links lead away from a node is well founded. -/
theorem PredAcyclic.wellFounded (h : PredAcyclic pred) :
    WellFounded fun u v => Relation.TransGen (PredLink pred) v u :=
  @Finite.wellFounded_of_trans_of_irrefl _ _ _ ⟨fun _ _ _ h₁ h₂ => h₂.trans h₁⟩ ⟨h⟩

/-- From every node the links lead, without visiting a node twice, to a node that has
none. -/
theorem PredAcyclic.exists_chain (h : PredAcyclic pred) (v : Fin n) :
    ∃ rest : List (Fin n), (v :: rest).Nodup ∧ (v :: rest).Chain' (PredLink pred) ∧
      pred ((v :: rest).getLast (List.cons_ne_nil v rest)) = none := by
  induction v using h.wellFounded.induction with
  | _ v ih =>
  cases hv : pred v with
  | none => exact ⟨[], List.nodup_singleton v, List.chain'_singleton v, hv⟩
  | some u =>
    obtain ⟨rest, hnd, hch, hlast⟩ := ih u (.single hv)
    exact ⟨u :: rest, List.nodup_cons.2 ⟨fun hmem =>
      h v (.head' hv (reflTransGen_of_mem_chain hch hmem)), hnd⟩,
      List.chain'_cons.2 ⟨hv, hch⟩, by rwa [List.getLast_cons_cons]⟩

section Redirect

variable {β : Type} {R R' : β → β → Prop} {i j : β}

/-- A path along links of which only `j → i` is new either uses old links only, or reaches
`j` and then continues from `i`. -/
theorem reflTransGen_redirect (hR' : ∀ x y, R' x y → (x = j ∧ y = i) ∨ R x y) {a b : β}
    (h : Relation.ReflTransGen R' a b) :
    Relation.ReflTransGen R a b ∨
      (Relation.ReflTransGen R a j ∧ Relation.ReflTransGen R i b) := by
  induction h with
  | refl => exact .inl .refl
  | tail _ hcb ih =>
    rcases hR' _ _ hcb with ⟨rfl, rfl⟩ | hcb
    · exact .inr ⟨ih.elim id (·.1), .refl⟩
    · exact ih.imp (·.tail hcb) fun h => ⟨h.1, h.2.tail hcb⟩

/-- A cycle along the redirected links is an old cycle, or `i` already led to `j`. -/
theorem transGen_redirect (hR' : ∀ x y, R' x y → (x = j ∧ y = i) ∨ R x y) {v : β}
    (h : Relation.TransGen R' v v) :
    Relation.TransGen R v v ∨ Relation.ReflTransGen R i j := by
  obtain ⟨w, hvw, hwv⟩ := Relation.TransGen.head'_iff.1 h
  rcases hR' _ _ hvw with ⟨rfl, rfl⟩ | hvw
  · exact .inr ((reflTransGen_redirect hR' hwv).elim id (·.1))
  · rcases reflTransGen_redirect hR' hwv with hwv | ⟨hwj, hiv⟩
    · exact .inl (Relation.TransGen.head' hvw hwv)
    · exact .inr (hiv.trans (Relation.ReflTransGen.head hvw hwj))

end Redirect

/-- Pointing `j` at `i` keeps the links acyclic unless `i` already led to `j`. -/
theorem PredAcyclic.update (h : PredAcyclic pred) {i j : Fin n}
    (hij : ¬ Relation.ReflTransGen (PredLink pred) i j) :
    PredAcyclic (Function.update pred j (some i)) := fun v hv => by
  refine (transGen_redirect (fun x y hxy => ?_) hv).elim (h v) hij
  by_cases hx : x = j
  · subst hx; exact .inl ⟨rfl, by simpa [PredLink] using hxy.symm⟩
  · exact .inr (by simpa [PredLink, hx] using hxy)

end Pred

/-- **Walking a chain of links.**  When every link `w → u` of a chain is an edge `u → w`
whose cost is the rise of `pot` from `u` to `w`, and the chain ends at `s` with
`pot s = 0`, the chain read backwards is a walk from `s` costing `pot` of its head. -/
theorem walk_of_chain [AddMonoid K] {c : EdgeRef n E → K} {pot : Fin n → K} {s : Fin n}
    (hs : pot s = 0) : ∀ (v : Fin n) (rest : List (Fin n)),
    (v :: rest).Chain' (fun w u => ∃ e ∈ g.edges u, e.target = w ∧ pot u + c e = pot w) →
    (v :: rest).getLast (List.cons_ne_nil v rest) = s →
    ∃ q, g.IsWalk s q v ∧ walkNodes s q = (v :: rest).reverse ∧ walkCost c q = pot v
  | v, [], _, hlast => by
    obtain rfl : v = s := hlast
    exact ⟨[], rfl, rfl, by simp [hs]⟩
  | v, u :: rest, hch, hlast => by
    obtain ⟨⟨e, he, rfl, hpot⟩, htail⟩ := List.chain'_cons.1 hch
    obtain ⟨q, hq, hnodes, hc⟩ :=
      walk_of_chain hs u rest htail (by rwa [List.getLast_cons_cons] at hlast)
    obtain rfl := g.source_edges u e he
    exact ⟨q ++ [e], isWalk_concat.2 ⟨hq, he, rfl⟩, by simp [walkNodes_append, hnodes],
      by simp [hc, hpot]⟩

end Network

end Petgraph
