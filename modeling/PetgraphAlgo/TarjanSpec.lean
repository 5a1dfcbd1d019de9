import PetgraphAlgo.Tarjan
import PetgraphAlgo.Kosaraju
import Mathlib.Data.Fin.VecNotation

/-!
# `tarjan_scc` is correct

The proof follows the recursion of `visit`.  `TarjanInv g P st` is what holds between any two
steps of a run, with `P` the nodes whose `visit` is under way (outermost first):
* numbering and the stack: numbers are below the counter, the stack holds numbered nodes in
  increasing order, and `on_stack` is membership;
* the slices passed to `f`: they hold each numbered node off the stack once, each is a
  whole strongly connected component, and no edge leaves them or goes to a later slice;
* the calls under way: each reaches every node pushed after it, and every stack node reaches
  one pushed no later; a node whose call is over has all its neighbours numbered.

`LoopInv` is the state of the loop of `visit(v)`.  Its lowlink is `v`'s own number or that of a
node below `v` on the stack that `v` reaches, and no edge seen so far, from `v` or a node
pushed after it, goes to a node below `v` with a smaller number than the lowlink.  At the
end of the loop a lowlink equal to `v`'s number means that no edge leaves the slice from `v`
to the top except towards emitted slices, so the slice is `v`'s component
(`TarjanInv.root_scc`).

Main results:
* `TarjanScc.visit_spec`: what `visit(w)` guarantees, on enough fuel;
* `TarjanScc.run_inv`: `run` from `new()` numbers every node and empties the stack;
* `tarjanScc_spec`: the slices, and `tarjan_scc`, meet the three conditions of
  `kosaraju_scc`, and group the nodes as `kosaraju_scc` does.
-/

namespace Petgraph

variable {n : ℕ}

namespace Graph

variable {g : Graph n}

/-- A walk from inside a set of nodes to outside it has an edge that leaves the set. -/
theorem Reach.exists_exit {S : Fin n → Prop} {a b : Fin n} (h : g.Reach a b) (ha : S a)
    (hb : ¬ S b) : ∃ x y, S x ∧ ¬ S y ∧ g.Adj x y ∧ g.Reach y b := by
  induction h using Relation.ReflTransGen.head_induction_on with
  | refl => exact absurd ha hb
  | @head a c hac hcb ih =>
    by_cases hc : S c
    · exact ih hc
    · exact ⟨a, c, ha, hc, hac, hcb⟩

end Graph

namespace TarjanScc

/-! ## Reading the records -/

section view

variable {st : TarjanScc n} {u v : Fin n} {l : ℕ}

/-- `visit` has numbered `u`. -/
def Visited (st : TarjanScc n) (u : Fin n) : Prop := (st.nodes u).index ≠ none

/-- The number `visit` gave `u`; `0` for a node not yet reached. -/
def idx (st : TarjanScc n) (u : Fin n) : ℕ := (st.nodes u).index.getD 0

theorem Visited.index_eq (h : st.Visited u) : (st.nodes u).index = some (st.idx u) := by
  unfold Visited at h; unfold idx
  cases h' : (st.nodes u).index
  · exact absurd h' h
  · rfl

theorem not_visited_iff : ¬ st.Visited u ↔ (st.nodes u).index = none := by
  simp [Visited]

@[simp] theorem visited_setLowlink : (st.setLowlink v l).Visited u ↔ st.Visited u := by
  simp [Visited]

@[simp] theorem idx_setLowlink : (st.setLowlink v l).idx u = st.idx u := by
  simp [idx]

theorem visited_push : (st.push v).Visited u ↔ u = v ∨ st.Visited u := by
  by_cases h : u = v
  · subst h; simp [Visited]
  · simp [Visited, push_nodes_of_ne h, h]

@[simp] theorem idx_push_self : (st.push v).idx v = st.index := by
  simp [idx]

theorem idx_push_of_ne (h : u ≠ v) : (st.push v).idx u = st.idx u := by
  simp [idx, push_nodes_of_ne h]

end view

variable (g : Graph n)

/-! ## The invariant of a run -/

/-- The invariant between any two steps of a run, `P` being the nodes whose `visit` is under
way, outermost first. -/
structure TarjanInv (P : List (Fin n)) (st : TarjanScc n) : Prop where
  idx_lt : ∀ u, st.Visited u → st.idx u < st.index
  stack_visited : ∀ x ∈ st.stack, st.Visited x
  /-- The stack holds nodes in increasing order of their numbers. -/
  stack_sorted : st.stack.Pairwise fun x y => st.idx x < st.idx y
  onStack_iff : ∀ u, (st.nodes u).onStack = true ↔ u ∈ st.stack
  /-- The slices passed to `f` hold each numbered node that is off the stack, once. -/
  mem_emitted : ∀ u, u ∈ st.emitted.flatten ↔ st.Visited u ∧ u ∉ st.stack
  emitted_nodup : st.emitted.flatten.Nodup
  /-- Each slice is a whole strongly connected component. -/
  emitted_scc : ∀ c ∈ st.emitted, ∀ u ∈ c, ∀ v, v ∈ c ↔ g.SameScc u v
  /-- No edge leaves the slices... -/
  emitted_closed : ∀ u ∈ st.emitted.flatten, ∀ w, g.Adj u w → w ∈ st.emitted.flatten
  /-- ...or goes from a slice to a later one. -/
  emitted_order : ∀ i j (hi : i < st.emitted.length) (hj : j < st.emitted.length), i < j →
    ∀ u ∈ st.emitted[i], ∀ v ∈ st.emitted[j], ¬ g.Adj u v
  /-- The calls under way are on stack nodes, in the order they were numbered. -/
  active_sorted : P.Pairwise fun a b => st.idx a < st.idx b
  active_stack : ∀ a ∈ P, a ∈ st.stack
  /-- A call under way reaches every node pushed after it... -/
  active_reach : ∀ a ∈ P, ∀ y ∈ st.stack, st.idx a ≤ st.idx y → g.Reach a y
  /-- ...and every stack node reaches a call under way pushed no later than itself. -/
  stack_reach : ∀ y ∈ st.stack, ∃ a ∈ P, st.idx a ≤ st.idx y ∧ g.Reach y a
  /-- A numbered node whose call is over has all its neighbours numbered. -/
  finished : ∀ u, st.Visited u → u ∉ P → ∀ w, g.Adj u w → st.Visited w

namespace TarjanInv

variable {g} {P : List (Fin n)} {st : TarjanScc n} {u v y : Fin n}

theorem stack_nodup (I : TarjanInv g P st) : st.stack.Nodup :=
  I.stack_sorted.imp fun h e => by subst e; exact lt_irrefl _ h

/-- Lowering a lowlink keeps the invariant, which does not read lowlinks. -/
theorem setLowlink (I : TarjanInv g P st) (v : Fin n) (l : ℕ) :
    TarjanInv g P (st.setLowlink v l) := by
  obtain ⟨h1, h2, h3, h4, h5, h6, h7, h8, h9, h10, h11, h12, h13, h14⟩ := I
  constructor <;> simpa only [visited_setLowlink, idx_setLowlink, setLowlink_stack,
    setLowlink_emitted, setLowlink_index, setLowlink_nodes_onStack]

/-- Nothing reaches out of the slices. -/
theorem reach_emitted (I : TarjanInv g P st) (hu : u ∈ st.emitted.flatten) (h : g.Reach u y) :
    y ∈ st.emitted.flatten := by
  induction h with
  | refl => exact hu
  | tail _ hab ih => exact I.emitted_closed _ ih _ hab

theorem not_mem_stack_of_emitted (I : TarjanInv g P st) (hu : u ∈ st.emitted.flatten) :
    u ∉ st.stack :=
  ((I.mem_emitted u).1 hu).2

/-- Every stack node reaches the innermost call under way. -/
theorem reach_last (I : TarjanInv g (P ++ [v]) st) (hy : y ∈ st.stack) : g.Reach y v := by
  obtain ⟨a, ha, hay, hya⟩ := I.stack_reach y hy
  have hv : v ∈ st.stack := I.active_stack v (by simp)
  have hav : st.idx a ≤ st.idx v := by
    rcases List.mem_append.1 ha with ha | ha
    · exact (List.pairwise_append.1 I.active_sorted).2.2 a ha v (by simp) |>.le
    · rw [List.mem_singleton.1 ha]
  exact hya.trans (I.active_reach a ha v hv hav)

/-- `visit(v)` starts: `v` is numbered with the counter and pushed. -/
theorem push (I : TarjanInv g P st) (hv : ¬ st.Visited v) (hreach : ∀ y ∈ st.stack, g.Reach y v) :
    TarjanInv g (P ++ [v]) (st.push v) := by
  have hne : ∀ x, st.Visited x → x ≠ v := fun x hx e => hv (e ▸ hx)
  have hsne : ∀ x ∈ st.stack, x ≠ v := fun x hx => hne x (I.stack_visited x hx)
  have hPne : ∀ a ∈ P, a ≠ v := fun a ha => hsne a (I.active_stack a ha)
  constructor
  · intro u hu
    rcases visited_push.1 hu with rfl | hu
    · simp
    · rw [idx_push_of_ne (hne u hu), push_index]; exact Nat.lt_succ_of_lt (I.idx_lt u hu)
  · exact List.forall_mem_append.2 ⟨fun x hx => visited_push.2 (.inr (I.stack_visited x hx)),
      List.forall_mem_singleton.2 (visited_push.2 (.inl rfl))⟩
  · simp only [push_stack, List.pairwise_append, List.pairwise_singleton, List.mem_singleton,
      forall_eq, idx_push_self, true_and]
    refine ⟨I.stack_sorted.imp_of_mem fun ha hb h => ?_, fun x hx => ?_⟩
    · rwa [idx_push_of_ne (hsne _ ha), idx_push_of_ne (hsne _ hb)]
    · rw [idx_push_of_ne (hsne x hx)]; exact I.idx_lt x (I.stack_visited x hx)
  · intro u
    by_cases h : u = v
    · subst h; simp
    · simp [push_nodes_of_ne h, I.onStack_iff, h]
  · intro u
    by_cases h : u = v
    · subst h
      simp only [push_emitted, visited_push, true_or, push_stack, List.mem_append,
        List.mem_singleton, or_true, not_true_eq_false, and_false, iff_false]
      exact fun h => hv ((I.mem_emitted _).1 h).1
    · simp [I.mem_emitted, visited_push, h]
  · exact I.emitted_nodup
  · exact I.emitted_scc
  · exact I.emitted_closed
  · exact I.emitted_order
  · simp only [List.pairwise_append, List.pairwise_singleton, List.mem_singleton, forall_eq,
      idx_push_self, true_and]
    refine ⟨I.active_sorted.imp_of_mem fun ha hb h => ?_, fun a ha => ?_⟩
    · rwa [idx_push_of_ne (hPne _ ha), idx_push_of_ne (hPne _ hb)]
    · rw [idx_push_of_ne (hPne a ha)]
      exact I.idx_lt a (I.stack_visited a (I.active_stack a ha))
  · exact List.forall_mem_append.2 ⟨fun a ha => List.mem_append_left _ (I.active_stack a ha),
      List.forall_mem_singleton.2 (List.mem_append_right _ (List.mem_singleton_self v))⟩
  · intro a ha y hy hay
    rcases List.mem_append.1 ha with ha | ha <;> rcases List.mem_append.1 hy with hy | hy
    · rw [idx_push_of_ne (hPne a ha), idx_push_of_ne (hsne y hy)] at hay
      exact I.active_reach a ha y hy hay
    · rw [List.mem_singleton.1 hy]; exact hreach a (I.active_stack a ha)
    · rw [List.mem_singleton.1 ha, idx_push_self, idx_push_of_ne (hsne y hy)] at hay
      exact absurd (I.idx_lt y (I.stack_visited y hy)) (not_lt.2 hay)
    · rw [List.mem_singleton.1 ha, List.mem_singleton.1 hy]
  · intro y hy
    rcases List.mem_append.1 hy with hy | hy
    · obtain ⟨a, ha, hay, hya⟩ := I.stack_reach y hy
      refine ⟨a, List.mem_append_left _ ha, ?_, hya⟩
      rwa [idx_push_of_ne (hPne a ha), idx_push_of_ne (hsne y hy)]
    · exact ⟨v, by simp, le_of_eq (by rw [List.mem_singleton.1 hy]), by
        rw [List.mem_singleton.1 hy]⟩
  · intro u hu huP w huw
    have huv : u ≠ v := fun e => huP (by simp [e])
    have hu' : st.Visited u := (visited_push.1 hu).resolve_left huv
    exact visited_push.2 (.inr (I.finished u hu' (fun h => huP (List.mem_append_left _ h)) w huw))

end TarjanInv

/-! ## What a call keeps -/

/-- What a call of `visit` keeps of the state `st₀` before it: the records of the nodes
numbered before, the stack below, and the counter; the nodes numbered since get numbers from
the old counter on. -/
structure Extends (st₀ st : TarjanScc n) : Prop where
  nodes_eq : ∀ x, st₀.Visited x → st.nodes x = st₀.nodes x
  stack_eq : ∃ L, st.stack = st₀.stack ++ L
  index_le : st₀.index ≤ st.index
  idx_new : ∀ x, st.Visited x → ¬ st₀.Visited x → st₀.index ≤ st.idx x

namespace Extends

variable {g} {st₀ st₁ st : TarjanScc n} {x v : Fin n}

theorem visited (E : Extends st₀ st) (h : st₀.Visited x) : st.Visited x := by
  unfold Visited; rw [E.nodes_eq x h]; exact h

theorem idx_eq (E : Extends st₀ st) (h : st₀.Visited x) : st.idx x = st₀.idx x := by
  unfold idx; rw [E.nodes_eq x h]

theorem mem_stack (E : Extends st₀ st) (h : x ∈ st₀.stack) : x ∈ st.stack := by
  obtain ⟨L, hL⟩ := E.stack_eq
  exact hL ▸ List.mem_append_left _ h

theorem trans (E₁ : Extends st₀ st₁) (E₂ : Extends st₁ st) : Extends st₀ st where
  nodes_eq x h := (E₂.nodes_eq x (E₁.visited h)).trans (E₁.nodes_eq x h)
  stack_eq := by
    obtain ⟨L₁, h₁⟩ := E₁.stack_eq
    obtain ⟨L₂, h₂⟩ := E₂.stack_eq
    exact ⟨L₁ ++ L₂, by rw [h₂, h₁, List.append_assoc]⟩
  index_le := E₁.index_le.trans E₂.index_le
  idx_new x h h₀ := by
    by_cases h₁ : st₁.Visited x
    · rw [E₂.idx_eq h₁]; exact E₁.idx_new x h₁ h₀
    · exact E₁.index_le.trans (E₂.idx_new x h h₁)

theorem setLowlink (E : Extends st₀ st) (hv : ¬ st₀.Visited v) (l : ℕ) :
    Extends st₀ (st.setLowlink v l) where
  nodes_eq x h := by
    rw [setLowlink_nodes_of_ne fun (e : x = v) => hv (e ▸ h)]; exact E.nodes_eq x h
  stack_eq := E.stack_eq
  index_le := E.index_le
  idx_new x h h₀ := by simpa using E.idx_new x (by simpa using h) h₀

theorem push (hv : ¬ st.Visited v) : Extends st (st.push v) where
  nodes_eq x h := push_nodes_of_ne fun (e : x = v) => hv (e ▸ h)
  stack_eq := ⟨[v], rfl⟩
  index_le := Nat.le_succ _
  idx_new x h h₀ := by
    rcases visited_push.1 h with rfl | h
    · simp
    · exact absurd h h₀

/-- A node numbered before the call is on the stack after it exactly when it was before. -/
theorem mem_stack_iff {P₀ P : List (Fin n)} (E : Extends st₀ st) (I₀ : TarjanInv g P₀ st₀)
    (I : TarjanInv g P st) (h : st₀.Visited x) : x ∈ st.stack ↔ x ∈ st₀.stack := by
  rw [← I.onStack_iff, ← I₀.onStack_iff, E.nodes_eq x h]

/-- A stack node numbered below the old counter was on the stack before the call. -/
theorem mem_old_stack {P₀ P : List (Fin n)} (E : Extends st₀ st) (I₀ : TarjanInv g P₀ st₀)
    (I : TarjanInv g P st) (hx : x ∈ st.stack) (hlt : st.idx x < st₀.index) : x ∈ st₀.stack := by
  by_cases h : st₀.Visited x
  · exact (E.mem_stack_iff I₀ I h).1 hx
  · exact absurd (E.idx_new x (I.stack_visited x hx) h) (not_le.2 hlt)

end Extends

/-! ## The end of a call: a root pops its component, any other node stays -/

namespace TarjanInv

variable {g} {P pre L : List (Fin n)} {st : TarjanScc n} {v z : Fin n}

/-- Once the innermost call has seen all its neighbours numbered, so has every numbered node
off the calls that remain. -/
theorem finished_of_last (I : TarjanInv g (P ++ [v]) st) (hfin : ∀ w, g.Adj v w → st.Visited w) :
    ∀ u, st.Visited u → u ∉ P → ∀ w, g.Adj u w → st.Visited w := fun u hu huP w huw => by
  by_cases huv : u = v
  · subst huv; exact hfin w huw
  · exact I.finished u hu (by simp [huP, huv]) w huw

section root

variable (I : TarjanInv g (P ++ [v]) st) (hst : st.stack = pre ++ v :: L)
  (hP : ∀ a ∈ P, a ∈ pre) (hlow : ∀ x ∈ v :: L, ∀ z ∈ pre, ¬ g.Adj x z)
  (hfin : ∀ w, g.Adj v w → st.Visited w)
include I hst hP hlow hfin

/-- An edge out of the slice from a root to the top goes into the slice or into an emitted
slice. -/
theorem root_out : ∀ x ∈ v :: L, ∀ y, g.Adj x y → y ∈ v :: L ∨ y ∈ st.emitted.flatten := by
  have hnd := I.stack_nodup
  rw [hst] at hnd
  intro x hx y hxy
  have hy : st.Visited y := by
    rcases List.mem_cons.1 hx with rfl | hxL
    · exact hfin y hxy
    · refine I.finished x (I.stack_visited x (by simp [hst, hxL])) (fun h => ?_) y hxy
      rcases List.mem_append.1 h with h | h
      · exact List.disjoint_of_nodup_append hnd (hP x h) (List.mem_cons_of_mem _ hxL)
      · rw [List.mem_singleton.1 h] at hxL
        exact (List.nodup_cons.1 (List.nodup_append.1 hnd).2.1).1 hxL
  by_cases hys : y ∈ st.stack
  · rw [hst, List.mem_append] at hys
    exact hys.elim (fun h => absurd hxy (hlow x hx y h)) .inl
  · exact .inr ((I.mem_emitted y).2 ⟨hy, hys⟩)

/-- The slice from a root to the top is the root's strongly connected component. -/
theorem root_scc (x : Fin n) : x ∈ v :: L ↔ g.SameScc v x := by
  have hvs : v ∈ st.stack := by simp [hst]
  have hnd := I.stack_nodup
  rw [hst] at hnd
  have hexit : ∀ a b, a ∈ v :: L → b ∉ v :: L → g.Reach a b → b ∈ st.emitted.flatten :=
    fun a b ha hb hab => by
      obtain ⟨p, q, hp, hq, hpq, hqb⟩ := hab.exists_exit (S := (· ∈ v :: L)) ha hb
      exact I.reach_emitted ((I.root_out hst hP hlow hfin p hp q hpq).resolve_left hq) hqb
  constructor
  · intro hx
    have hxs : x ∈ st.stack := by rw [hst]; exact List.mem_append_right _ hx
    have hvx : st.idx v ≤ st.idx x := by
      have hs := I.stack_sorted
      rw [hst] at hs
      rcases List.mem_cons.1 hx with rfl | hxL
      · exact le_rfl
      · exact ((List.pairwise_cons.1 (List.pairwise_append.1 hs).2.1).1 x hxL).le
    refine ⟨I.active_reach v (by simp) x hxs hvx, ?_⟩
    obtain ⟨a, ha, -, hxa⟩ := I.stack_reach x hxs
    rcases List.mem_append.1 ha with ha | ha
    · exact absurd (I.active_stack a (List.mem_append_left _ ha)) <| I.not_mem_stack_of_emitted <|
        hexit x a hx (List.disjoint_of_nodup_append hnd (hP a ha)) hxa
    · rwa [List.mem_singleton.1 ha] at hxa
  · rintro ⟨hvx, hxv⟩
    by_contra hx
    exact I.not_mem_stack_of_emitted (I.reach_emitted (hexit v x (by simp) hx hvx) hxv) hvs

/-- Popping the slice of a root keeps the invariant, with the root's call over. -/
theorem pop : TarjanInv g P { st with
    nodes := clearOnStack (v :: L) st.nodes
    stack := pre
    emitted := st.emitted ++ [v :: L] } := by
  have hnd := I.stack_nodup
  rw [hst] at hnd
  have hdis := List.disjoint_of_nodup_append hnd
  have hs := I.stack_sorted
  rw [hst] at hs
  have hscc := I.root_scc hst hP hlow hfin
  have hsub : ∀ x ∈ pre, x ∈ st.stack := fun x hx => by rw [hst]; exact List.mem_append_left _ hx
  have hseg : ∀ x ∈ v :: L, x ∈ st.stack := fun x hx => by rw [hst]; exact List.mem_append_right _ hx
  constructor
  · simpa [Visited, idx] using I.idx_lt
  · exact fun x hx => by simpa [Visited] using I.stack_visited x (hsub x hx)
  · simpa [idx] using (List.pairwise_append.1 hs).1
  · intro u
    rw [clearOnStack_onStack, I.onStack_iff, hst]
    by_cases hu : u ∈ v :: L
    · simp only [hu, not_true_eq_false, and_false, false_iff]
      exact fun h => hdis h hu
    · simp [hu]
  · intro u
    simp only [List.flatten_append, List.flatten_cons, List.flatten_nil, List.append_nil,
      List.mem_append, Visited, clearOnStack_index]
    constructor
    · rintro (h | h)
      · exact ⟨((I.mem_emitted u).1 h).1, fun hp => I.not_mem_stack_of_emitted h (hsub u hp)⟩
      · exact ⟨I.stack_visited u (hseg u h), fun hp => hdis hp h⟩
    · rintro ⟨hu, hp⟩
      by_cases h : u ∈ v :: L
      · exact .inr h
      · exact .inl ((I.mem_emitted u).2 ⟨hu, by rw [hst]; simp [hp, h]⟩)
  · simp only [List.flatten_append, List.flatten_cons, List.flatten_nil, List.append_nil]
    exact List.nodup_append.2 ⟨I.emitted_nodup, (List.nodup_append.1 hnd).2.1,
      fun _ ha hb => I.not_mem_stack_of_emitted ha (hseg _ hb)⟩
  · intro c hc u hu w
    rcases List.mem_append.1 hc with hc | hc
    · exact I.emitted_scc c hc u hu w
    · rw [List.mem_singleton.1 hc] at hu ⊢
      have hvu := (hscc u).1 hu
      rw [hscc w]
      exact ⟨fun h => hvu.symm.trans h, fun h => hvu.trans h⟩
  · intro u hu w huw
    simp only [List.flatten_append, List.flatten_cons, List.flatten_nil, List.append_nil,
      List.mem_append] at hu ⊢
    rcases hu with hu | hu
    · exact .inl (I.emitted_closed u hu w huw)
    · exact (I.root_out hst hP hlow hfin u hu w huw).symm
  · intro i j hi hj hij u hu w hw huw
    simp only [List.length_append, List.length_singleton] at hi hj
    rw [List.getElem_append_left (by omega)] at hu
    by_cases hjl : j < st.emitted.length
    · rw [List.getElem_append_left hjl] at hw
      exact I.emitted_order i j (by omega) hjl hij u hu w hw huw
    · have hjS : (st.emitted ++ [v :: L])[j] = v :: L := by
        rw [List.getElem_append_right (by omega)]; simp
      rw [hjS] at hw
      have hue : u ∈ st.emitted.flatten := List.mem_flatten.2 ⟨_, List.getElem_mem _, hu⟩
      exact I.not_mem_stack_of_emitted (I.emitted_closed u hue w huw) (hseg w hw)
  · simpa [idx] using (List.pairwise_append.1 I.active_sorted).1
  · exact hP
  · intro a ha y hy hay
    simp only [idx, clearOnStack_index] at hay
    exact I.active_reach a (List.mem_append_left _ ha) y (hsub y hy) hay
  · intro y hy
    obtain ⟨a, ha, hay, hya⟩ := I.stack_reach y (hsub y hy)
    rcases List.mem_append.1 ha with ha | ha
    · exact ⟨a, ha, by simpa [idx] using hay, hya⟩
    · rw [List.mem_singleton.1 ha] at hay
      exact absurd hay (not_le.2 ((List.pairwise_append.1 hs).2.2 y hy v (by simp)))
  · simpa only [Visited, clearOnStack_index] using I.finished_of_last hfin

end root

/-- A node whose lowlink is below its number stays on the stack once its call is over: it
reaches a node lower on the stack, and through it a call still under way. -/
theorem retire (I : TarjanInv g (P ++ [v]) st) (hz : z ∈ st.stack) (hlt : st.idx z < st.idx v)
    (hvz : g.Reach v z) (hfin : ∀ w, g.Adj v w → st.Visited w) : TarjanInv g P st :=
  { I with
    active_sorted := (List.pairwise_append.1 I.active_sorted).1
    active_stack := fun a ha => I.active_stack a (List.mem_append_left _ ha)
    active_reach := fun a ha => I.active_reach a (List.mem_append_left _ ha)
    stack_reach := fun y hy => by
      obtain ⟨a, ha, hay, hya⟩ := I.stack_reach y hy
      rcases List.mem_append.1 ha with ha | ha
      · exact ⟨a, ha, hay, hya⟩
      · rw [List.mem_singleton.1 ha] at hay hya
        obtain ⟨b, hb, hbz, hzb⟩ := I.stack_reach z hz
        rcases List.mem_append.1 hb with hb | hb
        · exact ⟨b, hb, by omega, hya.trans (hvz.trans hzb)⟩
        · rw [List.mem_singleton.1 hb] at hbz; omega
    finished := I.finished_of_last hfin }

end TarjanInv

/-! ## The loop of `visit(v)` -/

/-- The lowlink of `v` is `i`, its own number, or the number of a node lower on the stack
that `v` reaches. -/
def LowWitness (v : Fin n) (i : ℕ) (st : TarjanScc n) : Prop :=
  (st.nodes v).lowlink = i ∨
    ∃ z ∈ st.stack, st.idx z = (st.nodes v).lowlink ∧ st.idx z < i ∧ g.Reach v z

/-- The loop of `visit(v)`, started from the state `st₀` before `v` was pushed, after the
neighbours `W`. -/
structure LoopInv (P : List (Fin n)) (v : Fin n) (st₀ : TarjanScc n) (W : List (Fin n))
    (st : TarjanScc n) : Prop where
  inv : TarjanInv g (P ++ [v]) st
  ext : Extends st₀ st
  stack_eq : ∃ L, st.stack = st₀.stack ++ v :: L
  index_v : (st.nodes v).index = some st₀.index
  witness : LowWitness g v st₀.index st
  /-- No edge seen so far, from `v` or from a node pushed after it, goes to a node below `v`
  numbered under the lowlink. -/
  low : ∀ x ∈ st.stack, st₀.index ≤ st.idx x → ∀ z ∈ st.stack, st.idx z < st₀.index →
    g.Adj x z → (x = v → z ∈ W) → (st.nodes v).lowlink ≤ st.idx z
  processed : ∀ z ∈ W, st.Visited z

/-- What `visit(w)` from the state `st₀` guarantees. -/
structure VisitPost (P : List (Fin n)) (w : Fin n) (st₀ st : TarjanScc n) : Prop where
  inv : TarjanInv g P st
  ext : Extends st₀ st
  visited : st.Visited w
  witness : LowWitness g w st₀.index st
  /-- No edge from `w` or a node pushed after it goes to a node below `w` numbered under the
  lowlink of `w`. -/
  low : ∀ x ∈ st.stack, st₀.index ≤ st.idx x → ∀ z ∈ st.stack, st.idx z < st₀.index →
    g.Adj x z → (st.nodes w).lowlink ≤ st.idx z

namespace LoopInv

variable {g} {P W : List (Fin n)} {v u : Fin n} {st₀ st : TarjanScc n}

theorem visited_v (L : LoopInv g P v st₀ W st) : st.Visited v := by
  simp [Visited, L.index_v]

theorem idx_v (L : LoopInv g P v st₀ W st) : st.idx v = st₀.index := by
  simp [idx, L.index_v]

theorem lowlink_le (L : LoopInv g P v st₀ W st) : (st.nodes v).lowlink ≤ st₀.index := by
  rcases L.witness with h | ⟨z, -, hz, hlt, -⟩
  · exact h.le
  · omega

theorem not_visited (L : LoopInv g P v st₀ W st) (I₀ : TarjanInv g P st₀) : ¬ st₀.Visited v :=
  fun h => by
    have := I₀.idx_lt v h
    rw [← L.ext.idx_eq h, L.idx_v] at this
    exact lt_irrefl _ this

theorem start (I : TarjanInv g P st) (hv : ¬ st.Visited v)
    (hreach : ∀ y ∈ st.stack, g.Reach y v) : LoopInv g P v st [] (st.push v) where
  inv := I.push hv hreach
  ext := Extends.push hv
  stack_eq := ⟨[], rfl⟩
  index_v := by simp
  witness := .inl (by simp)
  low x hx hle z _ _ _ hW := by
    rcases List.mem_append.1 hx with hx | hx
    · have hxv := I.stack_visited x hx
      rw [idx_push_of_ne fun (e : x = v) => hv (e ▸ hxv)] at hle
      exact absurd (I.idx_lt x hxv) (not_lt.2 hle)
    · exact absurd (hW (List.mem_singleton.1 hx)) (List.not_mem_nil z)
  processed := by simp

/-- A neighbour `u` not yet numbered: after `visit(u)`, its lowlink is folded into `v`'s. -/
theorem step_call (L : LoopInv g P v st₀ W st) (I₀ : TarjanInv g P st₀) (hu : g.Adj v u)
    (hnu : ¬ st.Visited u) {st₁ : TarjanScc n} (Q : VisitPost g (P ++ [v]) u st st₁) :
    LoopInv g P v st₀ (W ++ [u])
      (st₁.setLowlink v (min (st₁.nodes v).lowlink (st₁.nodes u).lowlink)) := by
  have hvn : st₁.nodes v = st.nodes v := Q.ext.nodes_eq v L.visited_v
  have hlt₀ : st₀.index < st.index := L.idx_v ▸ L.inv.idx_lt v L.visited_v
  -- a stack node numbered below `v` after the call was there before it
  have hold : ∀ z ∈ st₁.stack, st₁.idx z < st₀.index → z ∈ st.stack ∧ st₁.idx z = st.idx z :=
    fun z hz hlt =>
      have hz' := Q.ext.mem_old_stack L.inv Q.inv hz (by omega)
      ⟨hz', Q.ext.idx_eq (L.inv.stack_visited z hz')⟩
  rw [hvn]
  refine ⟨Q.inv.setLowlink _ _, (L.ext.trans Q.ext).setLowlink (L.not_visited I₀) _, ?_, ?_, ?_,
    ?_, ?_⟩
  · obtain ⟨L₁, h₁⟩ := L.stack_eq
    obtain ⟨L₂, h₂⟩ := Q.ext.stack_eq
    exact ⟨L₁ ++ L₂, by simp [h₂, h₁]⟩
  · rw [setLowlink_nodes_index, hvn, L.index_v]
  · unfold LowWitness
    simp only [setLowlink_lowlink_self, setLowlink_stack, idx_setLowlink]
    rcases lt_or_le (st₁.nodes u).lowlink (st.nodes v).lowlink with h | h
    · rw [min_eq_right h.le]
      have := L.lowlink_le
      rcases Q.witness with h' | ⟨z, hz, hzl, -, huz⟩
      · omega
      · exact .inr ⟨z, hz, hzl, by omega, .head hu huz⟩
    · rw [min_eq_left h]
      rcases L.witness with h' | ⟨z, hz, hzl, hzlt, hvz⟩
      · exact .inl h'
      · have hzv := L.inv.stack_visited z hz
        exact .inr ⟨z, Q.ext.mem_stack hz, by rw [Q.ext.idx_eq hzv, hzl], by
          rwa [Q.ext.idx_eq hzv], hvz⟩
  · intro x hx hle z hz hlt hxz hW
    simp only [idx_setLowlink, setLowlink_lowlink_self] at hle hlt ⊢
    obtain ⟨hz', hzi⟩ := hold z hz hlt
    by_cases hxv : st.Visited x
    · have hx' : x ∈ st.stack := (Q.ext.mem_stack_iff L.inv Q.inv hxv).1 hx
      have hzu : z ≠ u := fun e => hnu (e ▸ L.inv.stack_visited z hz')
      rw [hzi]
      refine min_le_of_left_le (L.low x hx' (by rwa [← Q.ext.idx_eq hxv]) z hz' (by omega) hxz
        fun e => ?_)
      exact (List.mem_append.1 (hW e)).resolve_right (by simpa using hzu)
    · exact min_le_of_right_le <|
        Q.low x hx (Q.ext.idx_new x (Q.inv.stack_visited x hx) hxv) z hz (by omega) hxz
  · exact fun z hz => visited_setLowlink.2 <| List.forall_mem_append.2
      ⟨fun z hz => Q.ext.visited (L.processed z hz), List.forall_mem_singleton.2 Q.visited⟩ z hz

/-- A neighbour `u` on the stack lowers `v`'s lowlink to its number. -/
theorem step_onStack (L : LoopInv g P v st₀ W st) (I₀ : TarjanInv g P st₀) (hu : g.Adj v u)
    {i : ℕ} (hi : (st.nodes u).index = some i) (hon : (st.nodes u).onStack = true) :
    LoopInv g P v st₀ (W ++ [u]) (st.setLowlink v (min (st.nodes v).lowlink i)) := by
  have hus : u ∈ st.stack := (L.inv.onStack_iff u).1 hon
  have hui : st.idx u = i := by simp [idx, hi]
  refine ⟨L.inv.setLowlink _ _, L.ext.setLowlink (L.not_visited I₀) _, L.stack_eq,
    by rw [setLowlink_nodes_index, L.index_v], ?_, ?_, ?_⟩
  · unfold LowWitness
    simp only [setLowlink_lowlink_self, setLowlink_stack, idx_setLowlink]
    rcases lt_or_le i (st.nodes v).lowlink with h | h
    · rw [min_eq_right h.le]
      have := L.lowlink_le
      exact .inr ⟨u, hus, hui, by omega, .single hu⟩
    · rw [min_eq_left h]; exact L.witness
  · intro x hx hle z hz hlt hxz hW
    simp only [idx_setLowlink, setLowlink_lowlink_self] at hle hlt ⊢
    by_cases hzu : z = u
    · subst hzu; exact min_le_of_right_le hui.ge
    · exact min_le_of_left_le (L.low x hx hle z hz hlt hxz
        fun e => (List.mem_append.1 (hW e)).resolve_right (by simpa using hzu))
  · exact fun z hz => visited_setLowlink.2 <| List.forall_mem_append.2
      ⟨L.processed, List.forall_mem_singleton.2 (by simp [Visited, hi])⟩ z hz

/-- A neighbour `u` numbered and off the stack changes nothing. -/
theorem step_done (L : LoopInv g P v st₀ W st) {i : ℕ} (hi : (st.nodes u).index = some i)
    (hon : (st.nodes u).onStack = false) : LoopInv g P v st₀ (W ++ [u]) st :=
  { L with
    low := fun x hx hle z hz hlt hxz hW => L.low x hx hle z hz hlt hxz fun e =>
      (List.mem_append.1 (hW e)).resolve_right fun h => by
        rw [List.mem_singleton.1 h, ← L.inv.onStack_iff, hon] at hz
        exact Bool.false_ne_true hz
    processed := List.forall_mem_append.2
      ⟨L.processed, List.forall_mem_singleton.2 (by simp [Visited, hi])⟩ }

variable {call : Fin n → TarjanScc n → TarjanScc n}

/-- One round of the loop. -/
theorem step (L : LoopInv g P v st₀ W st) (I₀ : TarjanInv g P st₀) (hu : g.Adj v u)
    (hcall : ∀ st', TarjanInv g (P ++ [v]) st' → ¬ st'.Visited u →
      (∀ y ∈ st'.stack, g.Reach y u) → VisitPost g (P ++ [v]) u st' (call u st')) :
    LoopInv g P v st₀ (W ++ [u]) (visitNeighbor call v u st) := by
  unfold visitNeighbor
  split
  · next hi =>
    have hnu : ¬ st.Visited u := not_visited_iff.2 hi
    exact L.step_call I₀ hu hnu (hcall st L.inv hnu fun y hy => (L.inv.reach_last hy).tail hu)
  · next i hi =>
    split
    · next hon => exact L.step_onStack I₀ hu hi hon
    · next hon => exact L.step_done hi (Bool.not_eq_true _ ▸ hon)

/-- The whole loop. -/
theorem foldl (I₀ : TarjanInv g P st₀)
    (hcall : ∀ u st', TarjanInv g (P ++ [v]) st' → ¬ st'.Visited u →
      (∀ y ∈ st'.stack, g.Reach y u) → VisitPost g (P ++ [v]) u st' (call u st')) :
    ∀ (ws W : List (Fin n)) (st : TarjanScc n), W ++ ws = g.neighbors v →
      LoopInv g P v st₀ W st →
      LoopInv g P v st₀ (g.neighbors v) (ws.foldl (fun st w => visitNeighbor call v w st) st)
  | [], W, st, hW, L => by rwa [← hW, List.append_nil]
  | u :: ws, W, st, hW, L =>
    foldl I₀ hcall ws (W ++ [u]) _ (by simpa using hW)
      (L.step I₀ (by rw [Graph.Adj, ← hW]; simp) (hcall u))

/-- The end of `visit(v)`: a root pops its component, any other node stays on the stack. -/
theorem finish (L : LoopInv g P v st₀ (g.neighbors v) st) (I₀ : TarjanInv g P st₀) :
    VisitPost g P v st₀ (popScc v st) := by
  have hv₀ := L.not_visited I₀
  obtain ⟨Ls, hst⟩ := L.stack_eq
  have hfin : ∀ w, g.Adj v w → st.Visited w := fun w h => L.processed w h
  have hlow : ∀ x ∈ st.stack, st₀.index ≤ st.idx x → ∀ z ∈ st.stack, st.idx z < st₀.index →
      g.Adj x z → (st.nodes v).lowlink ≤ st.idx z :=
    fun x hx hle z hz hlt hxz => L.low x hx hle z hz hlt hxz fun e => e ▸ hxz
  by_cases hroot : (st.nodes v).lowlink = st₀.index
  · have hnd := L.inv.stack_nodup
    rw [hst] at hnd
    have hdis := List.disjoint_of_nodup_append hnd
    rw [popScc_of_root hst (List.nodup_cons.1 (List.nodup_append.1 hnd).2.1).1 L.index_v hroot]
    have hs := L.inv.stack_sorted
    rw [hst] at hs
    have hge : ∀ x ∈ v :: Ls, st₀.index ≤ st.idx x := fun x hx => by
      rw [← L.idx_v]
      rcases List.mem_cons.1 hx with rfl | hxL
      · exact le_rfl
      · exact ((List.pairwise_cons.1 (List.pairwise_append.1 hs).2.1).1 x hxL).le
    have hpre : ∀ z ∈ st₀.stack, st.idx z < st₀.index := fun z hz => by
      rw [L.ext.idx_eq (I₀.stack_visited z hz)]; exact I₀.idx_lt z (I₀.stack_visited z hz)
    have hcut : ∀ x ∈ v :: Ls, ∀ z ∈ st₀.stack, ¬ g.Adj x z := fun x hx z hz hxz => by
      have := hlow x (by rw [hst]; exact List.mem_append_right _ hx) (hge x hx) z
        (by rw [hst]; exact List.mem_append_left _ hz) (hpre z hz) hxz
      have := hpre z hz
      omega
    refine ⟨L.inv.pop hst I₀.active_stack hcut hfin, ⟨fun x hx => ?_, ⟨[], by simp⟩,
      L.ext.index_le, fun x hx hx₀ => ?_⟩, by simpa [Visited] using L.visited_v, .inl ?_, ?_⟩
    · have hxs : x ∉ v :: Ls := fun h => by
        rcases List.mem_cons.1 h with rfl | hxL
        · exact hv₀ hx
        · have hxst : x ∈ st.stack := by rw [hst]; simp [hxL]
          exact hdis ((L.ext.mem_stack_iff I₀ L.inv hx).1 hxst) (List.mem_cons_of_mem _ hxL)
      exact (clearOnStack_of_not_mem hxs).trans (L.ext.nodes_eq x hx)
    · simpa [idx] using L.ext.idx_new x (by simpa [Visited] using hx) hx₀
    · simpa using hroot
    · intro x hx hle
      simp only [idx, clearOnStack_index] at hle
      exact absurd hle (not_le.2 (by simpa [idx] using hpre x hx))
  · rw [popScc_of_ne L.index_v hroot]
    obtain ⟨z, hz, hzl, hzlt, hvz⟩ := L.witness.resolve_left hroot
    exact ⟨L.inv.retire hz (by rw [L.idx_v]; exact hzlt) hvz hfin, L.ext, L.visited_v,
      L.witness, hlow⟩

end LoopInv

/-! ## `visit` and `run` -/

/-- **`visit(w)`** on a node not yet numbered, which every stack node reaches, with fuel at
least the number of nodes outside the calls under way: the invariant is kept, `w` is numbered,
and what was there before is kept; the lowlink of `w` is its own number or that of a lower
stack node `w` reaches, and no edge from `w` or a node pushed after it goes to a lower stack
node numbered under it. -/
theorem visit_spec : ∀ (fuel : ℕ) (P : List (Fin n)) (w : Fin n) (st : TarjanScc n),
    n ≤ fuel + P.length → TarjanInv g P st → ¬ st.Visited w → (∀ y ∈ st.stack, g.Reach y w) →
    VisitPost g P w st (visit g fuel w st)
  | 0, P, w, st, hfuel, I, hw, _ => by
    have hnd : (w :: P).Nodup := List.nodup_cons.2
      ⟨fun h => hw (I.stack_visited w (I.active_stack w h)),
        I.active_sorted.imp fun h e => by subst e; exact lt_irrefl _ h⟩
    have := hnd.length_le_card
    simp only [List.length_cons, Fintype.card_fin] at this
    omega
  | fuel + 1, P, w, st, hfuel, I, hw, hreach => by
    rw [visit_succ_of_none (not_visited_iff.1 hw)]
    exact (LoopInv.foldl I (fun u st' I' hu hr => visit_spec fuel (P ++ [w]) u st'
      (by simp only [List.length_append, List.length_singleton]; omega) I' hu hr)
      _ [] _ (List.nil_append _) (LoopInv.start I hw hreach)).finish I

/-- The state `run` starts from, on `new()`, meets the invariant. -/
theorem tarjanInv_new :
    TarjanInv g [] ({ (new : TarjanScc n) with nodes := fun _ => ⟨none, usizeMax, false⟩ }) := by
  constructor <;> simp [Visited, new]

/-- The loop of `run` over `node_identifiers()`: `visit` is called on a numbered node as a
no-op, and otherwise with no call under way and an empty stack. -/
theorem run_foldl : ∀ (ids : List (Fin n)) (st : TarjanScc n), TarjanInv g [] st →
    TarjanInv g [] (ids.foldl (fun st v => visit g (n + 1) v st) st) ∧
      ∀ v, st.Visited v ∨ v ∈ ids → (ids.foldl (fun st v => visit g (n + 1) v st) st).Visited v
  | [], _, I => ⟨I, fun v h => h.resolve_right (List.not_mem_nil v)⟩
  | w :: ids, st, I => by
    have hstep : TarjanInv g [] (visit g (n + 1) w st) ∧
        (∀ v, st.Visited v → (visit g (n + 1) w st).Visited v) ∧
        (visit g (n + 1) w st).Visited w := by
      by_cases hw : st.Visited w
      · rw [visit_of_some hw.index_eq]; exact ⟨I, fun _ h => h, hw⟩
      · have Q := visit_spec g (n + 1) [] w st (by simp) I hw fun y hy => by
          obtain ⟨a, ha, -⟩ := I.stack_reach y hy
          exact absurd ha (List.not_mem_nil a)
        exact ⟨Q.inv, fun _ h => Q.ext.visited h, Q.visited⟩
    obtain ⟨I', hmono, hw⟩ := hstep
    obtain ⟨hI, hV⟩ := run_foldl ids _ I'
    refine ⟨hI, fun v h => hV v ?_⟩
    rcases h with h | h
    · exact .inl (hmono v h)
    · rcases List.mem_cons.1 h with rfl | h
      · exact .inl hw
      · exact .inr h

/-- `run` from `new()` keeps the invariant, numbers every node and leaves the stack empty. -/
theorem run_inv : TarjanInv g [] (run g new) ∧ (run g new).stack = [] ∧
    ∀ v, (run g new).Visited v := by
  obtain ⟨I, hV⟩ := run_foldl g g.nodeIdentifiers _ (tarjanInv_new g)
  refine ⟨I, List.eq_nil_iff_forall_not_mem.2 fun y hy => ?_,
    fun v => hV v (.inr (g.mem_nodeIdentifiers v))⟩
  obtain ⟨a, ha, -⟩ := I.stack_reach y hy
  exact List.not_mem_nil a ha

end TarjanScc

/-! ## The components -/

/-- The three conditions `kosarajuScc_spec` states of `kosaraju_scc`: the lists partition the
nodes, two nodes share a list exactly when each reaches the other, and an edge between two
lists goes to the earlier one. -/
structure IsSccOrder (g : Graph n) (sccs : List (List (Fin n))) : Prop where
  nodup : sccs.flatten.Nodup
  mem : ∀ v, v ∈ sccs.flatten
  together_iff : ∀ u v, (∃ c ∈ sccs, u ∈ c ∧ v ∈ c) ↔ g.SameScc u v
  order : ∀ i j (hi : i < sccs.length) (hj : j < sccs.length) u v,
    u ∈ sccs[i] → v ∈ sccs[j] → g.Adj u v → i ≠ j → j < i

/-- Reversing every list keeps the three conditions. -/
theorem IsSccOrder.map_reverse {g : Graph n} {sccs : List (List (Fin n))}
    (h : IsSccOrder g sccs) : IsSccOrder g (sccs.map List.reverse) where
  nodup := by
    obtain ⟨h₁, h₂⟩ := List.nodup_flatten.1 h.nodup
    refine List.nodup_flatten.2 ⟨?_, List.pairwise_map.2 (h₂.imp fun hd _ ha hb =>
      hd (List.mem_reverse.1 ha) (List.mem_reverse.1 hb))⟩
    simp only [List.mem_map]
    rintro _ ⟨l, hl, rfl⟩
    exact List.nodup_reverse.2 (h₁ l hl)
  mem v := by
    obtain ⟨l, hl, hv⟩ := List.mem_flatten.1 (h.mem v)
    exact List.mem_flatten.2 ⟨l.reverse, List.mem_map_of_mem _ hl, List.mem_reverse.2 hv⟩
  together_iff u v := by
    rw [← h.together_iff u v]
    constructor
    · rintro ⟨c, hc, hu, hv⟩
      obtain ⟨l, hl, rfl⟩ := List.mem_map.1 hc
      exact ⟨l, hl, List.mem_reverse.1 hu, List.mem_reverse.1 hv⟩
    · rintro ⟨l, hl, hu, hv⟩
      exact ⟨l.reverse, List.mem_map_of_mem _ hl, List.mem_reverse.2 hu, List.mem_reverse.2 hv⟩
  order i j hi hj u v hu hv :=
    h.order i j (by simpa using hi) (by simpa using hj) u v (by simpa using hu) (by simpa using hv)

/-- The slices of `TarjanScc::new().run(g, f)` meet the three conditions. -/
theorem TarjanScc.run_isSccOrder (g : Graph n) : IsSccOrder g (TarjanScc.run g TarjanScc.new).emitted := by
  obtain ⟨I, hnil, hall⟩ := TarjanScc.run_inv g
  have hmem : ∀ v, v ∈ (TarjanScc.run g TarjanScc.new).emitted.flatten := fun v =>
    (I.mem_emitted v).2 ⟨hall v, by simp [hnil]⟩
  refine ⟨I.emitted_nodup, hmem, fun u v => ⟨?_, fun h => ?_⟩,
    fun i j hi hj u v hu hv huv hij => ?_⟩
  · rintro ⟨c, hc, hu, hv⟩
    exact (I.emitted_scc c hc u hu v).1 hv
  · obtain ⟨c, hc, hu⟩ := List.mem_flatten.1 (hmem u)
    exact ⟨c, hc, hu, (I.emitted_scc c hc u hu v).2 h⟩
  · rcases Nat.lt_or_gt_of_ne hij with h | h
    · exact absurd huv (I.emitted_order i j hi hj h u hu v hv)
    · exact h

/-- **`tarjan_scc` is correct.**  The slices `TarjanScc::new().run(g, f)` passes to `f`, and the
lists of `tarjan_scc(g)`, partition the nodes into strongly connected components listed with
every edge between two of them going to the earlier one; and two nodes share a list of
`tarjan_scc(g)` exactly when they share one of `kosaraju_scc(g)`. -/
theorem tarjanScc_spec (g : Graph n) :
    IsSccOrder g (TarjanScc.run g TarjanScc.new).emitted ∧ IsSccOrder g (tarjanScc g) ∧
      ∀ u v, (∃ c ∈ tarjanScc g, u ∈ c ∧ v ∈ c) ↔ ∃ c ∈ kosarajuScc g, u ∈ c ∧ v ∈ c :=
  have h := TarjanScc.run_isSccOrder g
  ⟨h, h.map_reverse, fun u v =>
    (h.map_reverse.together_iff u v).trans (kosarajuScc_together_iff g u v).symm⟩

/-- A cycle `0 → 1 → 2 → 0` with an edge `2 → 3` out of it. -/
def cycleTailGraph : Graph 4 where
  nodeIdentifiers := List.finRange 4
  neighbors := ![[1], [2], [0, 3], []]
  incoming := ![[2], [0], [1], [2]]
  nodup_nodeIdentifiers := List.nodup_finRange 4
  mem_nodeIdentifiers := List.mem_finRange
  mem_incoming := by decide

/-- The sink component comes first, each list reversed from the order of the stack. -/
example : tarjanScc cycleTailGraph = [[3], [2, 1, 0]] := by decide

end Petgraph
