import PetgraphAlgo.Graph
import Mathlib.Data.Finset.Card
import Mathlib.Data.Multiset.Basic
import Mathlib.Data.Fin.VecNotation

/-!
# Maximal cliques: Bron-Kerbosch with and without a pivot

`maximal_cliques(g)` and `maximal_cliques_ref(g)` (`src/algo/mod.rs`) run Bron-Kerbosch
from `r = {}`, `p = node_identifiers()`, `x = {}`.  `bron_kerbosch_pivot` picks a pivot of
largest degree in `p` and recurses only on the candidates not adjacent to it; the reference
`bron_kerbosch_ref` recurses on every candidate.  Two nodes count as adjacent when each is a
neighbour of the other: the `neighbors` set the loop builds for `v` keeps a `w` of
`neighbors(v)` only if `is_adjacent(w, v)`.

The order in which a call iterates its `HashSet` `p` decides the pivot among nodes of equal
degree and the order of the recursive calls.  It is an `IterOrder`, any order of `p` for
each call, and every result holds for all of them.  Both functions recurse through one loop,
`cliqueLoop`, given the recursive call; each keeps its own entry test and its own choice of
the nodes to recurse on.

* `CliqueInv`: the invariant of a call `(r, p, x)`.  `r` is a clique, the nodes that can join
  `r` are exactly those of `p` and `x`, and `p` and `x` are disjoint.
* `cliqueLoop_spec`: the loop over `todo` lists, once each, the maximal cliques between `r`
  and `r ∪ p` that meet `todo`.
* `bronKerboschPivot_spec`, `bronKerboschRef_spec`: a call lists, once each, the maximal
  cliques between `r` and `r ∪ p`.  The pivot loses nothing: a maximal clique that avoids
  every non-neighbour of the pivot could be extended by the pivot.
* `maximalCliques_eq_ref`: `maximal_cliques(g)` lists every maximal clique of `g` once and
  nothing else, and `maximal_cliques_ref(g)` returns the same multiset, whatever the orders.

The recursion takes a depth bound `fuel` so that it is structural.  `p` loses a node at each
level, so `p.card + 1` levels are enough and the bound never cuts a run short.
-/

namespace Petgraph

variable {n : ℕ}

/-- The iteration order of the candidate set `p` of each call: any order of `p`, chosen
for each call from its `r` and `p`. -/
structure IterOrder (n : ℕ) where
  /-- The order in which the call with clique `r` iterates `p`. -/
  order : Finset (Fin n) → Finset (Fin n) → List (Fin n)
  nodup_order : ∀ r p, (order r p).Nodup
  mem_order : ∀ r p v, v ∈ order r p ↔ v ∈ p

/-- `out` holds each set satisfying `S` exactly once, and nothing else. -/
def ListsOnce (out : List (Finset (Fin n))) (S : Finset (Fin n) → Prop) : Prop :=
  out.Nodup ∧ ∀ c, c ∈ out ↔ S c

theorem ListsOnce.congr {out : List (Finset (Fin n))} {S S' : Finset (Fin n) → Prop}
    (h : ListsOnce out S) (hS : ∀ c, S c ↔ S' c) : ListsOnce out S' :=
  ⟨h.1, fun c => (h.2 c).trans (hS c)⟩

theorem ListsOnce.append {out₁ out₂ : List (Finset (Fin n))} {S₁ S₂ : Finset (Fin n) → Prop}
    (h₁ : ListsOnce out₁ S₁) (h₂ : ListsOnce out₂ S₂) (hd : ∀ c, S₁ c → ¬ S₂ c) :
    ListsOnce (out₁ ++ out₂) fun c => S₁ c ∨ S₂ c :=
  ⟨List.nodup_append.2 ⟨h₁.1, h₂.1, fun _ ha hb => hd _ ((h₁.2 _).1 ha) ((h₂.2 _).1 hb)⟩,
    fun c => by rw [List.mem_append, h₁.2, h₂.2]⟩

namespace Graph

variable (g : Graph n)

/-! ## The code -/

/-- `g.is_adjacent(adj_mat, a, b)`: the adjacency matrix records an edge `a → b`. -/
def isAdjacent (a b : Fin n) : Bool := decide (b ∈ g.neighbors a)

/-- The `neighbors` set the loop builds for `v`: every `w` of `neighbors(v)` with
`is_adjacent(w, v)`. -/
def adjacentNeighbors (v : Fin n) : Finset (Fin n) :=
  ((g.neighbors v).filter fun w => g.isAdjacent w v).toFinset

/-- The pivot loop over `p` in iteration order: the first node of largest
`neighbors(v).count()`, `None` only for an empty `p`. -/
def pivotOf (l : List (Fin n)) : Option (Fin n) :=
  (l.foldl (fun (acc : ℕ × Option (Fin n)) v =>
      if acc.2.isNone || acc.1 < (g.neighbors v).length then ((g.neighbors v).length, some v)
      else acc) (0, none)).2

/-- `while let Some(v) = todo.pop()`, with `todo` listed in the order it is popped and
`call` the recursive call: remove `v` from `p`, recurse on `(r ∪ {v}, p ∩ N(v), x ∩ N(v))`,
then add `v` to `x`. -/
def cliqueLoop (call : Finset (Fin n) → Finset (Fin n) → Finset (Fin n) → List (Finset (Fin n)))
    (r : Finset (Fin n)) : Finset (Fin n) → Finset (Fin n) → List (Fin n) → List (Finset (Fin n))
  | _, _, [] => []
  | p, x, v :: todo =>
    call (insert v r) (p.erase v ∩ g.adjacentNeighbors v) (x ∩ g.adjacentNeighbors v) ++
      cliqueLoop call r (p.erase v) (insert v x) todo

/-- `bron_kerbosch_pivot(g, adj_mat, r, p, x)`, at most `fuel` levels deep.  `todo` is `p` in
iteration order without the pivot's neighbours, popped from its end.  The `None` branch is
`max_vtx.unwrap()` on an empty `p`, which the test before it rules out. -/
def bronKerboschPivot (ord : IterOrder n) :
    ℕ → Finset (Fin n) → Finset (Fin n) → Finset (Fin n) → List (Finset (Fin n))
  | 0, _, _, _ => []
  | fuel + 1, r, p, x =>
    if p = ∅ then (if x = ∅ then [r] else [])
    else
      match g.pivotOf (ord.order r p) with
      | none => []
      | some u =>
        g.cliqueLoop (bronKerboschPivot ord fuel) r p x
          ((ord.order r p).filter fun v =>
            u == v || !g.isAdjacent u v || !g.isAdjacent v u).reverse

/-- `bron_kerbosch_ref(g, adj_mat, r, p, x)`, at most `fuel` levels deep: every node of `p`,
popped from the end of `p` in iteration order. -/
def bronKerboschRef (ord : IterOrder n) :
    ℕ → Finset (Fin n) → Finset (Fin n) → Finset (Fin n) → List (Finset (Fin n))
  | 0, _, _, _ => []
  | fuel + 1, r, p, x =>
    if p = ∅ ∧ x = ∅ then [r]
    else g.cliqueLoop (bronKerboschRef ord fuel) r p x (ord.order r p).reverse

/-- `maximal_cliques(g)`. -/
def maximalCliques (ord : IterOrder n) : List (Finset (Fin n)) :=
  g.bronKerboschPivot ord (n + 1) ∅ g.nodeIdentifiers.toFinset ∅

/-- `maximal_cliques_ref(g)`. -/
def maximalCliquesRef (ord : IterOrder n) : List (Finset (Fin n)) :=
  g.bronKerboschRef ord (n + 1) ∅ g.nodeIdentifiers.toFinset ∅

/-! ## Cliques -/

/-- `u` and `v` are each a neighbour of the other. -/
def MutualAdj (u v : Fin n) : Prop := g.Adj u v ∧ g.Adj v u

/-- Any two distinct members are mutually adjacent. -/
def IsClique (c : Finset (Fin n)) : Prop := ∀ a ∈ c, ∀ b ∈ c, a ≠ b → g.MutualAdj a b

/-- A clique such that no node outside it is adjacent to all its members. -/
def IsMaximalClique (c : Finset (Fin n)) : Prop :=
  g.IsClique c ∧ ∀ w ∉ c, ¬ ∀ a ∈ c, g.MutualAdj a w

/-- `v` can join the clique `r`: it is not in `r` and adjacent to every member. -/
def CanJoin (r : Finset (Fin n)) (v : Fin n) : Prop := v ∉ r ∧ ∀ a ∈ r, g.MutualAdj a v

/-- What the call `(r, p, x)` is to list: the maximal cliques between `r` and `r ∪ p`. -/
def Reports (r p c : Finset (Fin n)) : Prop := g.IsMaximalClique c ∧ r ⊆ c ∧ c ⊆ r ∪ p

/-- The invariant of a call `(r, p, x)`. -/
structure CliqueInv (r p x : Finset (Fin n)) : Prop where
  clique : g.IsClique r
  canJoin_p : ∀ v ∈ p, g.CanJoin r v
  canJoin_x : ∀ v ∈ x, g.CanJoin r v
  disjoint : Disjoint p x
  /-- Every node that can join `r` is still a candidate, or already excluded. -/
  cover : ∀ w, g.CanJoin r w → w ∈ p ∨ w ∈ x

variable {g} {r p x c : Finset (Fin n)} {u v w : Fin n}

theorem MutualAdj.symm (h : g.MutualAdj u v) : g.MutualAdj v u := ⟨h.2, h.1⟩

@[simp] theorem isAdjacent_eq_true : g.isAdjacent u v = true ↔ g.Adj u v := decide_eq_true_iff

theorem mem_adjacentNeighbors : w ∈ g.adjacentNeighbors v ↔ g.MutualAdj v w := by
  simp [adjacentNeighbors, MutualAdj, Graph.Adj]

theorem canJoin_insert : g.CanJoin (insert v r) w ↔ w ≠ v ∧ g.MutualAdj v w ∧ g.CanJoin r w := by
  simp only [CanJoin, Finset.mem_insert, forall_eq_or_imp, not_or]
  tauto

/-- On a non-empty `p` the pivot loop picks a node of `p`. -/
theorem pivotOf_mem {l : List (Fin n)} (hl : l ≠ []) : ∃ u ∈ l, g.pivotOf l = some u := by
  suffices key : ∀ (l : List (Fin n)) (acc : ℕ × Option (Fin n)), (acc.2.isSome ∨ l ≠ []) →
      ∃ u, (l.foldl (fun (acc : ℕ × Option (Fin n)) v =>
        if acc.2.isNone || acc.1 < (g.neighbors v).length then ((g.neighbors v).length, some v)
        else acc) acc).2 = some u ∧ (u ∈ l ∨ acc.2 = some u) by
    obtain ⟨u, hu, hmem⟩ := key l (0, none) (.inr hl)
    exact ⟨u, hmem.resolve_right (by simp), hu⟩
  intro l
  induction l with
  | nil =>
    rintro ⟨_, a⟩ h
    obtain ⟨u, rfl⟩ := Option.isSome_iff_exists.1 (h.resolve_right (by simp))
    exact ⟨u, rfl, .inr rfl⟩
  | cons v l ih =>
    intro acc _
    simp only [List.foldl_cons]
    split_ifs with hstep
    · obtain ⟨u, hu, hmem⟩ := ih ((g.neighbors v).length, some v) (.inl rfl)
      refine ⟨u, hu, .inl ?_⟩
      rcases hmem with hmem | hmem
      exacts [List.mem_cons_of_mem v hmem, (Option.some.inj hmem) ▸ List.mem_cons_self v l]
    · have hsome : acc.2.isSome = true :=
        Option.isSome_iff_ne_none.2 (by simp at hstep; exact hstep.1)
      obtain ⟨u, hu, hmem⟩ := ih acc (.inl hsome)
      exact ⟨u, hu, hmem.imp_left (List.mem_cons_of_mem v)⟩

/-! ## The invariant -/

/-- Recursing on `v`: `r ∪ {v}`, with the candidates and excluded nodes adjacent to `v`. -/
theorem CliqueInv.extend (h : g.CliqueInv r p x) (hv : v ∈ p) :
    g.CliqueInv (insert v r) (p.erase v ∩ g.adjacentNeighbors v) (x ∩ g.adjacentNeighbors v) where
  clique a ha b hb hab := by
    have hj := h.canJoin_p v hv
    rw [Finset.mem_insert] at ha hb
    rcases ha with rfl | ha
    · rcases hb with rfl | hb
      · exact absurd rfl hab
      · exact (hj.2 b hb).symm
    · rcases hb with rfl | hb
      · exact hj.2 a ha
      · exact h.clique a ha b hb hab
  canJoin_p w hw := by
    simp only [Finset.mem_inter, Finset.mem_erase, mem_adjacentNeighbors] at hw
    exact canJoin_insert.2 ⟨hw.1.1, hw.2, h.canJoin_p w hw.1.2⟩
  canJoin_x w hw := by
    simp only [Finset.mem_inter, mem_adjacentNeighbors] at hw
    exact canJoin_insert.2 ⟨fun e => Finset.disjoint_left.1 h.disjoint (e ▸ hv) hw.1, hw.2,
      h.canJoin_x w hw.1⟩
  disjoint := h.disjoint.mono (Finset.inter_subset_left.trans (Finset.erase_subset v p))
    Finset.inter_subset_left
  cover w hw := by
    obtain ⟨hne, hadj, hj⟩ := canJoin_insert.1 hw
    simp only [Finset.mem_inter, Finset.mem_erase, mem_adjacentNeighbors]
    rcases h.cover w hj with hp | hx
    exacts [.inl ⟨⟨hne, hp⟩, hadj⟩, .inr ⟨hx, hadj⟩]

/-- After the recursive call, `v` moves from `p` to `x`. -/
theorem CliqueInv.skip (h : g.CliqueInv r p x) (hv : v ∈ p) :
    g.CliqueInv r (p.erase v) (insert v x) where
  clique := h.clique
  canJoin_p w hw := h.canJoin_p w (Finset.mem_of_mem_erase hw)
  canJoin_x w hw := by
    rcases Finset.mem_insert.1 hw with rfl | hw
    exacts [h.canJoin_p w hv, h.canJoin_x w hw]
  disjoint := Finset.disjoint_insert_right.2 ⟨Finset.not_mem_erase v p,
    h.disjoint.mono_left (Finset.erase_subset v p)⟩
  cover w hw := by
    by_cases hwv : w = v
    · exact .inr (hwv ▸ Finset.mem_insert_self v x)
    · rcases h.cover w hw with hp | hx
      exacts [.inl (Finset.mem_erase.2 ⟨hwv, hp⟩), .inr (Finset.mem_insert_of_mem hx)]

/-- `r` itself is maximal exactly when nothing can join it. -/
theorem CliqueInv.isMaximalClique_iff (h : g.CliqueInv r p x) :
    g.IsMaximalClique r ↔ p = ∅ ∧ x = ∅ := by
  constructor
  · intro hm
    exact ⟨Finset.eq_empty_of_forall_not_mem fun v hv => hm.2 v (h.canJoin_p v hv).1
      (h.canJoin_p v hv).2, Finset.eq_empty_of_forall_not_mem fun v hv =>
      hm.2 v (h.canJoin_x v hv).1 (h.canJoin_x v hv).2⟩
  · rintro ⟨rfl, rfl⟩
    refine ⟨h.clique, fun w hw hall => ?_⟩
    simpa using h.cover w ⟨hw, hall⟩

/-! ## What a call lists -/

theorem reports_empty : g.Reports r ∅ c ↔ c = r ∧ g.IsMaximalClique r := by
  simp only [Reports, Finset.union_empty]
  constructor
  · rintro ⟨hm, h₁, h₂⟩
    obtain rfl := Finset.Subset.antisymm h₂ h₁
    exact ⟨rfl, hm⟩
  · rintro ⟨rfl, hm⟩
    exact ⟨hm, subset_rfl, subset_rfl⟩

/-- The cliques listed by the call on `v` are those that contain `v`. -/
theorem reports_extend_iff (hv : v ∈ p) :
    g.Reports (insert v r) (p.erase v ∩ g.adjacentNeighbors v) c ↔ g.Reports r p c ∧ v ∈ c := by
  simp only [Reports, Finset.insert_subset_iff]
  constructor
  · rintro ⟨hm, ⟨hvc, hr⟩, hc⟩
    refine ⟨⟨hm, hr, fun a ha => ?_⟩, hvc⟩
    have ha' := hc ha
    simp only [Finset.mem_union, Finset.mem_insert, Finset.mem_inter, Finset.mem_erase] at ha' ⊢
    rcases ha' with (rfl | ha') | ⟨⟨-, ha'⟩, -⟩
    exacts [.inr hv, .inl ha', .inr ha']
  · rintro ⟨⟨hm, hr, hc⟩, hvc⟩
    refine ⟨hm, ⟨hvc, hr⟩, fun a ha => ?_⟩
    have ha' := hc ha
    simp only [Finset.mem_union, Finset.mem_insert, Finset.mem_inter, Finset.mem_erase,
      mem_adjacentNeighbors] at ha' ⊢
    by_cases hav : a = v
    · exact .inl (.inl hav)
    rcases ha' with ha' | ha'
    exacts [.inl (.inr ha'), .inr ⟨⟨hav, ha'⟩, hm.1 v hvc a ha (Ne.symm hav)⟩]

/-- The cliques listed after `v` has moved to `x` are those that avoid `v`. -/
theorem reports_erase_iff (hvr : v ∉ r) : g.Reports r (p.erase v) c ↔ g.Reports r p c ∧ v ∉ c := by
  simp only [Reports, Finset.subset_iff, Finset.mem_union, Finset.mem_erase]
  constructor
  · rintro ⟨hm, hr, hc⟩
    refine ⟨⟨hm, hr, fun a ha => (hc ha).imp_right And.right⟩, fun hvc => ?_⟩
    rcases hc hvc with h | ⟨h, -⟩
    exacts [hvr h, h rfl]
  · rintro ⟨⟨hm, hr, hc⟩, hvc⟩
    exact ⟨hm, hr, fun a ha => (hc ha).imp_right fun hp => ⟨fun e => hvc (e ▸ ha), hp⟩⟩

/-- A listed clique other than `r` takes a candidate. -/
theorem Reports.eq_or_meets (hc : g.Reports r p c) : c = r ∨ ∃ v ∈ p, v ∈ c := by
  by_cases hm : ∃ v ∈ p, v ∈ c
  · exact .inr hm
  refine .inl (Finset.Subset.antisymm (fun a ha => ?_) hc.2.1)
  rcases Finset.mem_union.1 (hc.2.2 ha) with h | h
  exacts [h, absurd ⟨a, h, ha⟩ hm]

/-- **The pivot loses nothing.**  A maximal clique between `r` and `r ∪ p` takes a candidate
that is the pivot or not adjacent to it: otherwise the pivot could join it. -/
theorem CliqueInv.meets_todo (h : g.CliqueInv r p x) (hu : u ∈ p) (hc : g.Reports r p c) :
    ∃ v ∈ p, v ∈ c ∧ (u = v ∨ ¬ g.Adj u v ∨ ¬ g.Adj v u) := by
  by_contra hno
  push_neg at hno
  have huc : u ∉ c := fun huc => (hno u hu huc).1 rfl
  refine hc.1.2 u huc fun a ha => ?_
  by_cases har : a ∈ r
  · exact (h.canJoin_p u hu).2 a har
  · have hap : a ∈ p := (Finset.mem_union.1 (hc.2.2 ha)).resolve_left har
    obtain ⟨-, h₁, h₂⟩ := hno a hap ha
    exact ⟨h₂, h₁⟩

/-- **The loop.**  Popping the nodes of `todo` lists, once each, the maximal cliques between
`r` and `r ∪ p` that meet `todo`, given a call that lists what it should below `B`. -/
theorem cliqueLoop_spec
    {call : Finset (Fin n) → Finset (Fin n) → Finset (Fin n) → List (Finset (Fin n))} {B : ℕ}
    (hcall : ∀ r p x, g.CliqueInv r p x → p.card < B → ListsOnce (call r p x) (g.Reports r p))
    (r : Finset (Fin n)) :
    ∀ (todo : List (Fin n)) (p x : Finset (Fin n)), g.CliqueInv r p x → p.card ≤ B →
      todo.Nodup → (∀ v ∈ todo, v ∈ p) →
      ListsOnce (g.cliqueLoop call r p x todo) fun c => g.Reports r p c ∧ ∃ v ∈ todo, v ∈ c
  | [], _, _, _, _, _, _ => ⟨List.nodup_nil, by simp [cliqueLoop]⟩
  | v :: todo, p, x, h, hB, hnd, hsub => by
    obtain ⟨hvt, hnd⟩ := List.nodup_cons.1 hnd
    have hv : v ∈ p := hsub v (List.mem_cons_self v todo)
    have hcard : (p.erase v).card < B := (Finset.card_erase_lt_of_mem hv).trans_le hB
    have h₁ := hcall _ _ _ (h.extend hv)
      ((Finset.card_le_card Finset.inter_subset_left).trans_lt hcard)
    have h₂ := cliqueLoop_spec hcall r todo (p.erase v) (insert v x) (h.skip hv) hcard.le hnd
      fun w hw => Finset.mem_erase.2 ⟨fun e => hvt (e ▸ hw), hsub w (List.mem_cons_of_mem v hw)⟩
    have hvr : v ∉ r := (h.canJoin_p v hv).1
    refine (h₁.append h₂ fun c hc₁ hc₂ => ?_).congr fun c => ?_
    · exact ((reports_erase_iff hvr).1 hc₂.1).2 ((reports_extend_iff hv).1 hc₁).2
    · rw [reports_extend_iff hv, reports_erase_iff hvr]
      by_cases hvc : v ∈ c <;> simp [hvc]

/-- **Bron-Kerbosch with a pivot.**  With more levels than candidates, a call lists each
maximal clique between `r` and `r ∪ p` once, and nothing else. -/
theorem bronKerboschPivot_spec (ord : IterOrder n) :
    ∀ fuel r p x, g.CliqueInv r p x → p.card < fuel →
      ListsOnce (g.bronKerboschPivot ord fuel r p x) (g.Reports r p)
  | 0, _, _, _, _, hf => absurd hf (Nat.not_lt_zero _)
  | fuel + 1, r, p, x, h, hf => by
    rw [bronKerboschPivot]
    by_cases hp : p = ∅
    · subst hp
      by_cases hx : x = ∅
      · subst hx
        rw [if_pos rfl, if_pos rfl]
        exact ⟨List.nodup_singleton r, fun c => by
          simp [reports_empty, h.isMaximalClique_iff]⟩
      · rw [if_pos rfl, if_neg hx]
        exact ⟨List.nodup_nil, fun c => by simp [reports_empty, h.isMaximalClique_iff, hx]⟩
    rw [if_neg hp]
    have hl : ord.order r p ≠ [] := fun hl => hp (Finset.eq_empty_of_forall_not_mem fun v hv =>
      by simpa [hl] using (ord.mem_order r p v).2 hv)
    obtain ⟨u, hu, hpiv⟩ := g.pivotOf_mem hl
    rw [hpiv]
    refine (cliqueLoop_spec (bronKerboschPivot_spec ord fuel) r _ p x h (Nat.lt_succ_iff.1 hf)
      (List.nodup_reverse.2 ((ord.nodup_order r p).filter _)) fun v hv => ?_).congr fun c =>
      ⟨And.left, fun hc => ⟨hc, ?_⟩⟩
    · exact (ord.mem_order r p v).1 (List.mem_filter.1 (List.mem_reverse.1 hv)).1
    · obtain ⟨v, hv, hvc, hnot⟩ := h.meets_todo ((ord.mem_order r p u).1 hu) hc
      refine ⟨v, List.mem_reverse.2 (List.mem_filter.2 ⟨(ord.mem_order r p v).2 hv, ?_⟩), hvc⟩
      simpa [Graph.Adj, isAdjacent, or_assoc] using hnot

/-- **Reference Bron-Kerbosch.**  With more levels than candidates, a call lists each maximal
clique between `r` and `r ∪ p` once, and nothing else. -/
theorem bronKerboschRef_spec (ord : IterOrder n) :
    ∀ fuel r p x, g.CliqueInv r p x → p.card < fuel →
      ListsOnce (g.bronKerboschRef ord fuel r p x) (g.Reports r p)
  | 0, _, _, _, _, hf => absurd hf (Nat.not_lt_zero _)
  | fuel + 1, r, p, x, h, hf => by
    rw [bronKerboschRef]
    by_cases hpx : p = ∅ ∧ x = ∅
    · obtain ⟨rfl, rfl⟩ := hpx
      rw [if_pos ⟨rfl, rfl⟩]
      exact ⟨List.nodup_singleton r, fun c => by simp [reports_empty, h.isMaximalClique_iff]⟩
    rw [if_neg hpx]
    refine (cliqueLoop_spec (bronKerboschRef_spec ord fuel) r _ p x h (Nat.lt_succ_iff.1 hf)
      (List.nodup_reverse.2 (ord.nodup_order r p)) fun v hv =>
        (ord.mem_order r p v).1 (List.mem_reverse.1 hv)).congr fun c =>
      ⟨And.left, fun hc => ⟨hc, ?_⟩⟩
    rcases hc.eq_or_meets with rfl | ⟨v, hv, hvc⟩
    · exact absurd (h.isMaximalClique_iff.1 hc.1) hpx
    · exact ⟨v, List.mem_reverse.2 ((ord.mem_order r p v).2 hv), hvc⟩

/-- The start `(∅, node_identifiers(), ∅)` satisfies the invariant and lists every maximal
clique. -/
theorem cliqueInv_start : g.CliqueInv ∅ g.nodeIdentifiers.toFinset ∅ where
  clique a ha := absurd ha (Finset.not_mem_empty a)
  canJoin_p _ _ := ⟨Finset.not_mem_empty _, fun a ha => absurd ha (Finset.not_mem_empty a)⟩
  canJoin_x v hv := absurd hv (Finset.not_mem_empty v)
  disjoint := Finset.disjoint_empty_right _
  cover w _ := .inl (List.mem_toFinset.2 (g.mem_nodeIdentifiers w))

theorem reports_start : g.Reports ∅ g.nodeIdentifiers.toFinset c ↔ g.IsMaximalClique c := by
  simp [Reports, Finset.subset_iff, g.mem_nodeIdentifiers]

end Graph

/-- **Maximal cliques.**  Whatever the iteration orders, `maximal_cliques(g)` lists every
maximal clique of `g` exactly once and nothing else, so does `maximal_cliques_ref(g)`, and the
two return the same multiset of sets. -/
theorem maximalCliques_eq_ref (g : Graph n) (ord ord' : IterOrder n) :
    ListsOnce (g.maximalCliques ord) g.IsMaximalClique ∧
      ListsOnce (g.maximalCliquesRef ord') g.IsMaximalClique ∧
      (g.maximalCliques ord : Multiset (Finset (Fin n))) = g.maximalCliquesRef ord' := by
  have hcard : g.nodeIdentifiers.toFinset.card < n + 1 :=
    Nat.lt_succ_of_le ((Finset.card_le_univ _).trans_eq (Fintype.card_fin n))
  have h₁ := (g.bronKerboschPivot_spec ord _ _ _ _ Graph.cliqueInv_start hcard).congr
    fun _ => Graph.reports_start
  have h₂ := (g.bronKerboschRef_spec ord' _ _ _ _ Graph.cliqueInv_start hcard).congr
    fun _ => Graph.reports_start
  exact ⟨h₁, h₂, Multiset.coe_eq_coe.2
    ((List.perm_ext_iff_of_nodup h₁.1 h₂.1).2 fun c => (h₁.2 c).trans (h₂.2 c).symm)⟩

/-- A triangle `0, 1, 2` with a pendant edge `2 - 3`, every edge stored both ways. -/
def pawGraph : Graph 4 where
  nodeIdentifiers := List.finRange 4
  neighbors := ![[1, 2], [0, 2], [0, 1, 3], [2]]
  incoming := ![[1, 2], [0, 2], [0, 1, 3], [2]]
  nodup_nodeIdentifiers := List.nodup_finRange 4
  mem_nodeIdentifiers := List.mem_finRange
  mem_incoming := by decide

/-- Every set iterated in increasing order. -/
def ascendingOrder (n : ℕ) : IterOrder n where
  order _ p := (List.finRange n).filter (· ∈ p)
  nodup_order _ _ := (List.nodup_finRange n).filter _
  mem_order _ p v := by simp [List.mem_finRange]

example : (pawGraph.maximalCliques (ascendingOrder 4) : Multiset (Finset (Fin 4))) =
    {{0, 1, 2}, {2, 3}} := by
  decide

end Petgraph
