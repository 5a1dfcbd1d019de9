import PetgraphAlgo.Visit

/-!
# The post-order traversal and its invariant

Phase 1 of `toposort` and the first pass of `kosaraju_scc` both run the loop of
`DfsPostOrder::next` over every root.  A node is pushed possibly several times before it
is discovered; it is discovered on the copy that is on top when it is first seen there,
and finished when that copy is popped.  This file proves the invariant `PostInv` of that
loop and what it gives once every node is finished:

* `PostInv.finished_adj`: for every edge `u → v`, `v` finished before `u`, or `v` reaches
  `u`;
* `PostInv.finished_reach`: whatever `u` reaches finished before `u`, or is reached from
  a node of `u`'s component that finished after `u` — the property Kosaraju's second pass
  rests on.

The invariant speaks of *gray* nodes (discovered, not finished).  The copies above the
topmost occurrence of a gray node `w` are `above s w`: they were all pushed while `w` was
being explored, so `w` reaches them.
-/

namespace Petgraph

variable {n : ℕ}

/-- `a` occurs before `b` in `l`. -/
def Before (l : List (Fin n)) (a b : Fin n) : Prop := List.Sublist [a, b] l

theorem Before.append {l : List (Fin n)} {a b : Fin n} (h : Before l a b) (l' : List (Fin n)) :
    Before (l ++ l') a b :=
  h.trans (List.sublist_append_left l l')

theorem before_append_singleton {l : List (Fin n)} {a : Fin n} (ha : a ∈ l) (b : Fin n) :
    Before (l ++ [b]) a b :=
  (List.singleton_sublist.2 ha).append (List.Sublist.refl [b])

theorem before_cons_iff {l : List (Fin n)} {a u v : Fin n} :
    Before (a :: l) u v ↔ Before l u v ∨ (u = a ∧ v ∈ l) := by
  simp only [Before, List.sublist_cons_iff, List.cons.injEq, List.singleton_sublist]
  constructor
  · rintro (h | ⟨r, ⟨rfl, rfl⟩, h⟩)
    · exact .inl h
    · exact .inr ⟨rfl, List.singleton_sublist.1 h⟩
  · rintro (h | ⟨rfl, h⟩)
    · exact .inl h
    · exact .inr ⟨[v], ⟨rfl, rfl⟩, List.singleton_sublist.2 h⟩

theorem before_reverse {l : List (Fin n)} {a b : Fin n} : Before l.reverse a b ↔ Before l b a := by
  rw [Before, Before, ← List.reverse_sublist, List.reverse_reverse]; rfl

/-- On a list without duplicates, `Before` compares positions. -/
theorem before_iff_indexOf {l : List (Fin n)} (hl : l.Nodup) {a b : Fin n} :
    Before l a b ↔ a ∈ l ∧ b ∈ l ∧ l.indexOf a < l.indexOf b := by
  induction l with
  | nil => simp [Before]
  | cons c l ih =>
    obtain ⟨hc, hl⟩ := List.nodup_cons.1 hl
    rw [before_cons_iff, ih hl]
    by_cases ha : a = c
    · subst ha
      have : b ∈ l → b ≠ a := fun hb h => hc (h ▸ hb)
      by_cases hb : b = a
      · subst hb; simp [hc]
      · simp [List.indexOf_cons_ne _ (Ne.symm hb), hc, hb]
    · by_cases hb : b = c
      · subst hb; simp [List.indexOf_cons_ne _ (Ne.symm ha), ha, hc]
      · simp [List.indexOf_cons_ne _ (Ne.symm ha), List.indexOf_cons_ne _ (Ne.symm hb), ha, hb]

theorem Before.trans' {l : List (Fin n)} (hl : l.Nodup) {a b c : Fin n} (h₁ : Before l a b)
    (h₂ : Before l b c) : Before l a c := by
  rw [before_iff_indexOf hl] at *
  exact ⟨h₁.1, h₂.2.1, h₁.2.2.trans h₂.2.2⟩

theorem Before.irrefl {l : List (Fin n)} (hl : l.Nodup) (a : Fin n) : ¬ Before l a a := by
  rw [before_iff_indexOf hl]; simp

/-! ## The part of the stack above a node -/

/-- The part of the stack `s` above the topmost copy of `w`. -/
def above (s : List (Fin n)) (w : Fin n) : List (Fin n) := s.takeWhile (· ≠ w)

section above

variable {s l : List (Fin n)} {w x y : Fin n}

@[simp] theorem above_nil : above [] w = [] := rfl

@[simp] theorem above_cons_self : above (w :: s) w = [] :=
  List.takeWhile_cons_of_neg (by simp)

theorem above_cons_of_ne (h : x ≠ w) : above (x :: s) w = x :: above s w :=
  List.takeWhile_cons_of_pos (by simpa using h)

theorem above_append_of_not_mem (h : w ∉ l) : above (l ++ s) w = l ++ above s w :=
  List.takeWhile_append_of_pos fun _ hy => decide_eq_true fun h' => h (h' ▸ hy)

theorem mem_of_mem_above (h : y ∈ above s w) : y ∈ s :=
  (List.takeWhile_sublist _).subset h

end above

/-! ## The invariant -/

/-- The invariant of a post-order traversal in state `st`, having finished the nodes of
`out` in that order. -/
structure PostInv (g : Graph n) (st : DfsPostOrder n) (out : List (Fin n)) : Prop where
  finished_sub : st.finished ⊆ st.discovered
  nodup : out.Nodup
  mem_out : ∀ v, v ∈ out ↔ v ∈ st.finished
  gray_mem : ∀ w ∈ st.discovered, w ∉ st.finished → w ∈ st.stack
  gray_above : ∀ w ∈ st.discovered, w ∉ st.finished → ∀ x ∈ above st.stack w, g.Reach w x
  gray_succ : ∀ w ∈ st.discovered, w ∉ st.finished → ∀ v, g.Adj w v →
    v ∈ above st.stack w ∨ v ∈ st.finished ∨ (v ∈ st.discovered ∧ g.Reach v w)
  finished_succ : ∀ u ∈ st.finished, ∀ v, g.Adj u v → v ∈ st.discovered
  finished_adj : ∀ u ∈ st.finished, ∀ v, g.Adj u v → Before out v u ∨ g.Reach v u
  finished_reach : ∀ u ∈ st.finished, ∀ v, g.Reach u v →
    v = u ∨ Before out v u ∨ ∃ w, g.SameScc u w ∧ g.Reach w v ∧ (w ∉ st.finished ∨ Before out u w)

namespace PostInv

variable {g : Graph n} {x i : Fin n} {s out : List (Fin n)} {d f : Finset (Fin n)}

theorem init : PostInv g DfsPostOrder.empty [] := by
  constructor <;> simp [DfsPostOrder.empty]

/-- With the stack empty there is no gray node. -/
theorem discovered_eq (I : PostInv g ⟨[], d, f⟩ out) : d = f :=
  le_antisymm (fun w hw => by_contra fun hf => by simpa using I.gray_mem w hw hf) I.finished_sub

/-- Pushing a new root on the empty stack. -/
theorem root (I : PostInv g ⟨[], d, f⟩ out) : PostInv g ⟨[i], d, f⟩ out := by
  have hdf := I.discovered_eq
  subst hdf
  exact { I with
    gray_mem := fun w hw hf => absurd hw hf
    gray_above := fun w hw hf => absurd hw hf
    gray_succ := fun w hw hf => absurd hw hf }

/-- A gray node below the top reaches the top. -/
theorem reach_top (I : PostInv g ⟨x :: s, d, f⟩ out) {w : Fin n} (hw : w ∈ d) (hf : w ∉ f)
    (hxw : x ≠ w) : g.Reach w x :=
  I.gray_above w hw hf x (by simp [above_cons_of_ne hxw])

/-- The first time `x` is on top, it is discovered and its undiscovered neighbours are
pushed over it. -/
theorem discover (I : PostInv g ⟨x :: s, d, f⟩ out) (hx : x ∉ d) :
    PostInv g ⟨pushUnvisited (insert x d) (g.neighbors x) (x :: s), insert x d, f⟩ out := by
  obtain ⟨pushed, hp, hpush⟩ := pushUnvisited_spec (insert x d) (g.neighbors x) (x :: s)
  have habove : ∀ w ∈ insert x d, above (pushed ++ x :: s) w = pushed ++ above (x :: s) w :=
    fun w hw => above_append_of_not_mem fun h => ((hpush w).1 h).2 hw
  rw [hp]
  refine ⟨I.finished_sub.trans (Finset.subset_insert _ _), I.nodup, I.mem_out, ?_, ?_, ?_,
    fun u hu v huv => Finset.mem_insert_of_mem (I.finished_succ u hu v huv),
    I.finished_adj, I.finished_reach⟩
  · intro w hw hf
    rcases Finset.mem_insert.1 hw with rfl | hw
    · simp
    · simp [I.gray_mem w hw hf]
  · intro w hw hf y hy
    rw [habove w hw, List.mem_append] at hy
    rcases Finset.mem_insert.1 hw with rfl | hw
    · rcases hy with hy | hy
      · exact .single ((hpush y).1 hy).1
      · simp at hy
    · have hxw : x ≠ w := fun h => hx (h ▸ hw)
      rcases hy with hy | hy
      · exact (I.reach_top hw hf hxw).tail ((hpush y).1 hy).1
      · exact I.gray_above w hw hf y hy
  · intro w hw hf v hv
    rw [habove w hw]
    rcases Finset.mem_insert.1 hw with rfl | hw
    · by_cases hvd : v ∈ insert w d
      · rcases Finset.mem_insert.1 hvd with rfl | hvd
        · exact .inr (.inr ⟨hvd, .refl _⟩)
        · by_cases hvf : v ∈ f
          · exact .inr (.inl hvf)
          · exact .inr (.inr ⟨Finset.mem_insert_of_mem hvd,
              I.reach_top hvd hvf fun h => hx (h ▸ hvd)⟩)
      · exact .inl (List.mem_append_left _ ((hpush v).2 ⟨hv, hvd⟩))
    · rcases I.gray_succ w hw hf v hv with h | h | ⟨h₁, h₂⟩
      · exact .inl (List.mem_append_right _ h)
      · exact .inr (.inl h)
      · exact .inr (.inr ⟨Finset.mem_insert_of_mem h₁, h₂⟩)

/-- What a finished node reaches is finished, or is reached through a gray node, as long
as every neighbour of a finished node is discovered. -/
theorem reach_of_closed {F D : Finset (Fin n)} (hcl : ∀ u ∈ F, ∀ v, g.Adj u v → v ∈ D)
    {u v : Fin n} (hu : u ∈ F) (h : g.Reach u v) :
    v ∈ F ∨ ∃ w ∈ D, w ∉ F ∧ g.Reach u w ∧ g.Reach w v := by
  induction h with
  | refl => exact .inl hu
  | @tail y z huy hyz ih =>
    rcases ih with hy | ⟨w, hw, hwF, huw, hwy⟩
    · by_cases hz : z ∈ F
      · exact .inl hz
      · exact .inr ⟨z, hcl y hy z hyz, hz, Graph.Reach.tail huy hyz, .refl _⟩
    · exact .inr ⟨w, hw, hwF, huw, hwy.tail hyz⟩

/-- Once `x` is finished, popping it keeps what the invariant says of the gray nodes. -/
theorem pop_gray (I : PostInv g ⟨x :: s, d, f⟩ out) {F : Finset (Fin n)} (hfF : f ⊆ F)
    (hxF : x ∈ F) :
    (∀ w ∈ d, w ∉ F → w ∈ s) ∧ (∀ w ∈ d, w ∉ F → ∀ y ∈ above s w, g.Reach w y) ∧
      ∀ w ∈ d, w ∉ F → ∀ v, g.Adj w v → v ∈ above s w ∨ v ∈ F ∨ (v ∈ d ∧ g.Reach v w) := by
  have hne : ∀ {w}, w ∉ F → x ≠ w ∧ w ∉ f := fun hw => ⟨fun h => hw (h ▸ hxF), fun h => hw (hfF h)⟩
  refine ⟨fun w hw hwF => ?_, fun w hw hwF y hy => ?_, fun w hw hwF v hv => ?_⟩ <;>
    obtain ⟨hxw, hwf⟩ := hne hwF
  · simpa [Ne.symm hxw] using I.gray_mem w hw hwf
  · exact I.gray_above w hw hwf y (by simp [above_cons_of_ne hxw, hy])
  · rcases I.gray_succ w hw hwf v hv with h | h | h
    · rw [above_cons_of_ne hxw, List.mem_cons] at h
      rcases h with rfl | h
      · exact .inr (.inl hxF)
      · exact .inl h
    · exact .inr (.inl (hfF h))
    · exact .inr (.inr h)

/-- The second time `x` is on top it is popped and finished. -/
theorem finish (I : PostInv g ⟨x :: s, d, f⟩ out) (hx : x ∈ d) (hf : x ∉ f) :
    PostInv g ⟨s, d, insert x f⟩ (out ++ [x]) := by
  have hxout : x ∉ out := fun h => hf ((I.mem_out x).1 h)
  have hsucc : ∀ v, g.Adj x v → v ∈ f ∨ (v ∈ d ∧ g.Reach v x) := fun v hv => by
    simpa using I.gray_succ x hx hf v hv
  have hne : ∀ {w}, w ∉ insert x f → x ≠ w ∧ w ∉ f := fun hw =>
    ⟨fun h => hw (h ▸ Finset.mem_insert_self _ _), fun h => hw (Finset.mem_insert_of_mem h)⟩
  have hcl : ∀ u ∈ insert x f, ∀ v, g.Adj u v → v ∈ d := by
    intro u hu v hv
    rcases Finset.mem_insert.1 hu with rfl | hu
    · rcases hsucc v hv with h | h
      · exact I.finished_sub h
      · exact h.1
    · exact I.finished_succ u hu v hv
  obtain ⟨hgray, habove, hsucc'⟩ :=
    I.pop_gray (Finset.subset_insert x f) (Finset.mem_insert_self x f)
  refine ⟨Finset.insert_subset hx I.finished_sub, ?_, ?_, hgray, habove, hsucc', hcl, ?_, ?_⟩
  · exact List.nodup_append.2 ⟨I.nodup, List.nodup_singleton x, by simpa using hxout⟩
  · intro v; simp [I.mem_out, or_comm]
  · intro u hu v hv
    rcases Finset.mem_insert.1 hu with rfl | hu
    · rcases hsucc v hv with h | h
      · exact .inl (before_append_singleton ((I.mem_out v).2 h) u)
      · exact .inr h.2
    · exact (I.finished_adj u hu v hv).imp_left (·.append _)
  · intro u hu v hv
    rcases Finset.mem_insert.1 hu with rfl | hu
    · rcases reach_of_closed hcl (Finset.mem_insert_self u f) hv with h | ⟨w, hw, hwf, huw, hwv⟩
      · rcases Finset.mem_insert.1 h with rfl | h
        · exact .inl rfl
        · exact .inr (.inl (before_append_singleton ((I.mem_out v).2 h) u))
      · obtain ⟨hxw, hwf'⟩ := hne hwf
        exact .inr (.inr ⟨w, ⟨huw, I.reach_top hw hwf' hxw⟩, hwv, .inl hwf⟩)
    · rcases I.finished_reach u hu v hv with h | h | ⟨w, hsw, hwv, h⟩
      · exact .inl h
      · exact .inr (.inl (h.append _))
      · refine .inr (.inr ⟨w, hsw, hwv, ?_⟩)
        rcases h with h | h
        · by_cases hwx : w = x
          · exact .inr (hwx ▸ before_append_singleton ((I.mem_out u).2 hu) x)
          · exact .inl fun h' => (Finset.mem_insert.1 h').elim hwx h
        · exact .inr (h.append _)

/-- A stale copy of a finished node is popped. -/
theorem skip (I : PostInv g ⟨x :: s, d, f⟩ out) (hf : x ∈ f) : PostInv g ⟨s, d, f⟩ out :=
  have h := I.pop_gray subset_rfl hf
  { I with gray_mem := h.1, gray_above := h.2.1, gray_succ := h.2.2 }

/-- `DfsPostOrder::next` keeps the invariant, the node it returns appended to the finish
order. -/
theorem next {st : DfsPostOrder n} (I : PostInv g st out) :
    PostInv g (DfsPostOrder.next g st).2 (out ++ (DfsPostOrder.next g st).1.toList) := by
  induction st using DfsPostOrder.next.induct g generalizing out with
  | case1 => simpa [DfsPostOrder.next] using I
  | case2 x s d f hx ih => rw [DfsPostOrder.next, if_pos hx]; exact ih (I.discover hx)
  | case3 x s d f hx hf =>
    rw [DfsPostOrder.next, if_neg hx, if_pos hf]; exact I.finish (not_not.1 hx) hf
  | case4 x s d f hx hf ih =>
    rw [DfsPostOrder.next, if_neg hx, if_neg hf]; exact ih (I.skip (not_not.1 hf))

/-- Draining a post-order traversal keeps the invariant and empties the stack. -/
theorem drain {st : DfsPostOrder n} (I : PostInv g st out) :
    PostInv g (DfsPostOrder.drain g st out).2 (DfsPostOrder.drain g st out).1 ∧
      (DfsPostOrder.drain g st out).2.stack = [] ∧
      st.discovered ⊆ (DfsPostOrder.drain g st out).2.discovered := by
  induction st, out using DfsPostOrder.drain.induct g with
  | case1 st out st' h =>
    rw [DfsPostOrder.drain, h]
    have I' := I.next
    have hn : (DfsPostOrder.next g st).2.stack = [] := DfsPostOrder.next_none (by rw [h])
    have hd := DfsPostOrder.discovered_subset_next g st
    rw [h] at I' hn hd
    exact ⟨by simpa using I', hn, hd⟩
  | case2 st out x st' h ih =>
    rw [DfsPostOrder.drain, h]
    have I' := I.next
    rw [h] at I'
    obtain ⟨h₁, h₂, h₃⟩ := ih I'
    have hd := DfsPostOrder.discovered_subset_next g st
    rw [h] at hd
    exact ⟨h₁, h₂, hd.trans h₃⟩

/-! ## A complete traversal -/

/-- Once every node is discovered and the stack is empty, the finish order lists every node
once. -/
theorem complete (I : PostInv g ⟨[], d, f⟩ out) (hd : ∀ v, v ∈ d) :
    out.Nodup ∧ ∀ v, v ∈ out := by
  refine ⟨I.nodup, fun v => (I.mem_out v).2 ?_⟩
  rw [← I.discovered_eq]; exact hd v

end PostInv

end Petgraph
