import PetgraphAlgo.Visit

/-!
# What a `Dfs` traversal discovers

`kosaraju_scc` (second pass) and `has_path_connecting` restart a `Dfs` at one node with
some nodes already discovered, and run it to the end.  `Dfs.drain_spec` says what that
yields: exactly the nodes reachable from the start through nodes not discovered before,
each once.
-/

namespace Petgraph

variable {n : ℕ}

namespace Graph

variable (g : Graph n)

/-- `b` is reachable from `a` through nodes outside `D` (`a` itself excepted). -/
def ReachAvoid (D : Finset (Fin n)) : Fin n → Fin n → Prop :=
  Relation.ReflTransGen fun x y => g.Adj x y ∧ y ∉ D

variable {g}

theorem ReachAvoid.reach {D : Finset (Fin n)} {a b : Fin n} (h : g.ReachAvoid D a b) :
    g.Reach a b :=
  Relation.ReflTransGen.mono (fun _ _ h => h.1) h

theorem ReachAvoid.not_mem {D : Finset (Fin n)} {a b : Fin n} (ha : a ∉ D)
    (h : g.ReachAvoid D a b) : b ∉ D := by
  induction h with
  | refl => exact ha
  | tail _ h _ => exact h.2

/-- A walk all of whose nodes avoid `D` avoids `D`. -/
theorem reachAvoid_of_reach {D : Finset (Fin n)} {a b : Fin n} (h : g.Reach a b)
    (hD : ∀ y, g.Reach a y → g.Reach y b → y ∉ D) : g.ReachAvoid D a b := by
  induction h with
  | refl => exact .refl
  | @tail c d hac hcd ih =>
    exact .tail (ih fun y hay hyc => hD y hay (hyc.tail hcd)) ⟨hcd, hD d (hac.tail hcd) (.refl d)⟩

end Graph

/-- The invariant of a `Dfs` run from `r`, the nodes of `D₀` discovered beforehand; `out`
lists the nodes it has discovered so far. -/
structure DrainInv (g : Graph n) (D₀ : Finset (Fin n)) (r : Fin n) (dfs : Dfs n)
    (out : List (Fin n)) : Prop where
  sub : D₀ ⊆ dfs.discovered
  root : r ∈ dfs.discovered ∨ r ∈ dfs.stack
  stack_reach : ∀ x ∈ dfs.stack, x ∉ D₀ → g.ReachAvoid D₀ r x
  reach : ∀ x ∈ dfs.discovered, x ∉ D₀ → g.ReachAvoid D₀ r x
  closed : ∀ x ∈ dfs.discovered, x ∉ D₀ → ∀ y, g.Adj x y → y ∈ dfs.discovered ∨ y ∈ dfs.stack
  nodup : out.Nodup
  mem_out : ∀ x, x ∈ out ↔ x ∈ dfs.discovered ∧ x ∉ D₀

namespace DrainInv

variable {g : Graph n} {D₀ : Finset (Fin n)} {r : Fin n} {dfs : Dfs n} {out : List (Fin n)}

theorem start (hr : r ∉ D₀) (s : List (Fin n)) : DrainInv g D₀ r (Dfs.moveTo ⟨s, D₀⟩ r) [] where
  sub := subset_rfl
  root := .inr (List.mem_singleton_self r)
  stack_reach x hx _ := by simp only [Dfs.moveTo, List.mem_singleton] at hx; subst hx; exact .refl
  reach x hx hx' := absurd hx hx'
  closed x hx hx' := absurd hx hx'
  nodup := List.nodup_nil
  mem_out x := by simp [Dfs.moveTo]

/-- One call of `Dfs::next` keeps the invariant. -/
theorem next (I : DrainInv g D₀ r dfs out) :
    DrainInv g D₀ r (Dfs.next g dfs).2 (out ++ (Dfs.next g dfs).1.toList) := by
  obtain ⟨s, d⟩ := dfs
  rcases Dfs.next_spec g s d with ⟨h, hs⟩ | ⟨s₁, x, s₂, rfl, h₁, hx, h⟩
  · rw [h]
    dsimp only
    refine ⟨I.sub, .inl (I.root.elim id (hs r)), by simp, I.reach,
      fun x hx hx' y hy => .inl ((I.closed x hx hx' y hy).elim id (hs y)), by simpa using I.nodup,
      by simpa using I.mem_out⟩
  · rw [h]
    dsimp only
    have hxD : x ∉ D₀ := fun h' => hx (I.sub h')
    have hxr : g.ReachAvoid D₀ r x := I.stack_reach x (by simp) hxD
    -- a node of the old stack is now discovered or still on the stack
    have hold : ∀ y ∈ s₁ ++ x :: s₂,
        y ∈ insert x d ∨ y ∈ pushUnvisited (insert x d) (g.neighbors x) s₂ := by
      simp only [List.mem_append, List.mem_cons]
      rintro y (hy | rfl | hy)
      · exact .inl (Finset.mem_insert_of_mem (h₁ y hy))
      · exact .inl (Finset.mem_insert_self _ _)
      · exact .inr (mem_pushUnvisited.2 (.inr hy))
    refine ⟨I.sub.trans (Finset.subset_insert _ _), ?_, ?_, ?_, ?_, ?_, ?_⟩
    · exact I.root.elim (fun h' => .inl (Finset.mem_insert_of_mem h')) (hold r)
    · intro y hy hyD
      rcases mem_pushUnvisited.1 hy with ⟨hy, -⟩ | hy
      · exact hxr.tail ⟨hy, hyD⟩
      · exact I.stack_reach y (by simp [hy]) hyD
    · intro y hy hyD
      rcases Finset.mem_insert.1 hy with rfl | hy
      · exact hxr
      · exact I.reach y hy hyD
    · intro z hz hzD y hy
      rcases Finset.mem_insert.1 hz with rfl | hz
      · by_cases hyd : y ∈ insert z d
        · exact .inl hyd
        · exact .inr (mem_pushUnvisited.2 (.inl ⟨hy, hyd⟩))
      · exact (I.closed z hz hzD y hy).elim (fun h' => .inl (Finset.mem_insert_of_mem h')) (hold y)
    · exact List.nodup_append.2 ⟨I.nodup, List.nodup_singleton x,
        by simpa [I.mem_out] using fun h' => absurd h' hx⟩
    · intro y
      simp only [Option.toList_some, List.mem_append, I.mem_out, List.mem_singleton,
        Finset.mem_insert]
      constructor
      · rintro (h' | rfl)
        · exact ⟨.inr h'.1, h'.2⟩
        · exact ⟨.inl rfl, hxD⟩
      · rintro ⟨rfl | h', h''⟩
        · exact .inr rfl
        · exact .inl ⟨h', h''⟩

/-- Once the stack is empty, the run has discovered everything reachable from `r` through
nodes outside `D₀`. -/
theorem complete (I : DrainInv g D₀ r ⟨[], d⟩ out) (hr : r ∉ D₀) {x : Fin n}
    (h : g.ReachAvoid D₀ r x) : x ∈ d := by
  have : x ∈ d ∧ x ∉ D₀ := by
    induction h with
    | refl => exact ⟨I.root.resolve_right (List.not_mem_nil r), hr⟩
    | tail _ hyz ih =>
      exact ⟨(I.closed _ ih.1 ih.2 _ hyz.1).resolve_right (List.not_mem_nil _), hyz.2⟩
  exact this.1

end DrainInv

/-- **What a `Dfs` restarted at `r` discovers.**  Run to the end with the nodes of `D₀`
already discovered, it returns each node reachable from `r` through nodes outside `D₀`
exactly once, and leaves those nodes and `D₀` discovered. -/
theorem Dfs.drain_spec (g : Graph n) {D₀ : Finset (Fin n)} {r : Fin n} (hr : r ∉ D₀)
    (s : List (Fin n)) :
    let res := Dfs.drain g (Dfs.moveTo ⟨s, D₀⟩ r) []
    res.1.Nodup ∧ (∀ x, x ∈ res.1 ↔ g.ReachAvoid D₀ r x) ∧
      (∀ x, x ∈ res.2.discovered ↔ x ∈ D₀ ∨ x ∈ res.1) ∧ res.2.stack = [] := by
  suffices H : ∀ dfs out, DrainInv g D₀ r dfs out →
      let res := Dfs.drain g dfs out
      DrainInv g D₀ r res.2 res.1 ∧ res.2.stack = [] by
    obtain ⟨I, hs⟩ := H _ _ (DrainInv.start hr s)
    generalize Dfs.drain g (Dfs.moveTo ⟨s, D₀⟩ r) [] = res at I hs ⊢
    obtain ⟨out, st, d⟩ := res
    dsimp only at I hs ⊢
    subst hs
    refine ⟨I.nodup, fun x => ⟨fun hx => ?_, fun hx => ?_⟩, fun x => ?_, rfl⟩
    · exact I.reach x ((I.mem_out x).1 hx).1 ((I.mem_out x).1 hx).2
    · exact (I.mem_out x).2 ⟨I.complete hr hx, hx.not_mem hr⟩
    · rw [I.mem_out]
      by_cases hx : x ∈ D₀
      · simp [hx, I.sub hx]
      · simp [hx]
  intro dfs out I
  induction dfs, out using Dfs.drain.induct g with
  | case1 dfs out dfs' h =>
    rw [Dfs.drain, h]
    have I' := I.next
    rw [h] at I'
    obtain ⟨s', d'⟩ := dfs
    rcases Dfs.next_spec g s' d' with ⟨h', -⟩ | ⟨s₁, x, s₂, -, -, -, h'⟩
    · rw [h'] at h; cases h
      exact ⟨by simpa using I', rfl⟩
    · rw [h'] at h; cases h
  | case2 dfs out x dfs' h ih =>
    rw [Dfs.drain, h]
    have I' := I.next
    rw [h] at I'
    exact ih I'

end Petgraph
