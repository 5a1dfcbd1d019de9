import PetgraphAlgo.ToposortCycle

/-!
# Phase 1 of `toposort`: stale stack entries finish nothing

Phase 1 of `toposort` pushes a neighbour whenever it is not yet discovered, so a node can sit
on the stack several times before it is discovered.  It is discovered on the copy that reaches
the top first, and it is the pop of that copy that appends it to `finish_stack`: by then every
copy below it is stale, and when one of those comes to the top the node is already
discovered and finished, so `finished.visit(nx)` returns `false` and nothing is appended.

`toposortVisitTagged` and `toposortRootsTagged` run phase 1 with every stack entry tagged by
whether its node was discovered on it, and log every pop with its tag and with what
`finished.visit(nx)` returned; without the tags and the log they are `toposortVisit` and
`toposortRoots` (`toposortVisitTagged_erase`, `toposortRootsTagged_erase`).  `TagInv` is the
invariant of the tagged stack: a tagged entry is a node discovered and not finished, the
topmost entry of such a node is tagged, and no node is tagged twice.

* `toposort_phase1`: when phase 1 succeeds, `finish_stack` lists every node once, every pop
  appends exactly when its entry is the copy its node was discovered on, and every edge
  `u → v` has `v` before `u` in `finish_stack` or `v` reaching `u`.
-/

namespace Petgraph

variable {n : ℕ}

/-! ## The tagged phase 1 -/

/-- Phase 1's state with every stack entry tagged `true` when its node was discovered on it,
and the log of the pops so far: `(nx, tag, appended)`, with `appended` what
`finished.visit(nx)` returned. -/
structure TaggedPhase1 (n : ℕ) where
  stack : List (Fin n × Bool)
  discovered : Finset (Fin n)
  finished : Finset (Fin n)
  finishStack : List (Fin n)
  pops : List (Fin n × Bool × Bool)

/-- The state without the tags and the log: phase 1's `DfsPostOrder` and `finish_stack`. -/
def TaggedPhase1.erase (t : TaggedPhase1 n) : DfsPostOrder n × List (Fin n) :=
  (⟨t.stack.map Prod.fst, t.discovered, t.finished⟩, t.finishStack)

/-- `toposortVisit` on the tagged state: a node is discovered on the entry at the top, which
gets the tag, and its undiscovered neighbours are pushed over it untagged; every pop is
logged. -/
def toposortVisitTagged (g : Graph n) (t : TaggedPhase1 n) : Except (Cycle n) (TaggedPhase1 n) :=
  match t with
  | ⟨[], d, f, fs, log⟩ => .ok ⟨[], d, f, fs, log⟩
  | ⟨(nx, b) :: s, d, f, fs, log⟩ =>
    if nx ∉ d then
      if nx ∈ g.neighbors nx then .error ⟨nx⟩
      else
        toposortVisitTagged g ⟨(pushUnvisited (insert nx d) (g.neighbors nx) []).map (·, false) ++
          (nx, true) :: s, insert nx d, f, fs, log⟩
    else if nx ∉ f then toposortVisitTagged g ⟨s, d, insert nx f, fs ++ [nx], log ++ [(nx, b, true)]⟩
    else toposortVisitTagged g ⟨s, d, f, fs, log ++ [(nx, b, false)]⟩
termination_by (n - t.discovered.card, t.stack.length)
decreasing_by
  · exact Prod.Lex.left _ _ (card_insert_lt ‹_›)
  · exact Prod.Lex.right _ (by simp)
  · exact Prod.Lex.right _ (by simp)

/-- `toposortRoots` on the tagged state: each new root is pushed untagged. -/
def toposortRootsTagged (g : Graph n) : List (Fin n) → TaggedPhase1 n →
    Except (Cycle n) (TaggedPhase1 n)
  | [], t => .ok t
  | i :: is, t =>
    if i ∈ t.discovered then toposortRootsTagged g is t
    else
      match toposortVisitTagged g { t with stack := (i, false) :: t.stack } with
      | .error c => .error c
      | .ok t' => toposortRootsTagged g is t'

/-- The tagged loop is phase 1's loop: without the tags and the log, it takes the same steps
and ends in the same state, or fails on the same self-loop. -/
theorem toposortVisitTagged_erase (g : Graph n) (t : TaggedPhase1 n) :
    (toposortVisitTagged g t).map TaggedPhase1.erase = toposortVisit g t.erase.1 t.erase.2 := by
  induction t using toposortVisitTagged.induct g with
  | case1 d f fs log => simp [toposortVisitTagged, toposortVisit, TaggedPhase1.erase, Except.map]
  | case2 nx b s d f fs log hx hloop =>
    simp [toposortVisitTagged, toposortVisit, TaggedPhase1.erase, Except.map, hx, hloop]
  | case3 nx b s d f fs log hx hloop ih =>
    rw [toposortVisitTagged, if_pos hx, if_neg hloop, ih]
    simp [toposortVisit, TaggedPhase1.erase, hx, hloop, pushUnvisited_eq, Function.comp_def]
  | case4 nx b s d f fs log hx hf ih =>
    rw [toposortVisitTagged, if_neg hx, if_pos hf, ih]
    simp [toposortVisit, TaggedPhase1.erase, hx, hf]
  | case5 nx b s d f fs log hx hf ih =>
    rw [toposortVisitTagged, if_neg hx, if_neg hf, ih]
    simp [toposortVisit, TaggedPhase1.erase, hx, hf]

theorem toposortRootsTagged_erase (g : Graph n) : ∀ (is : List (Fin n)) (t : TaggedPhase1 n),
    (toposortRootsTagged g is t).map TaggedPhase1.erase = toposortRoots g is t.erase.1 t.erase.2
  | [], _ => rfl
  | i :: is, t => by
    rw [toposortRootsTagged, toposortRoots]
    by_cases hi : i ∈ t.discovered
    · rw [if_pos hi, if_pos (show i ∈ t.erase.1.discovered from hi)]
      exact toposortRootsTagged_erase g is t
    · rw [if_neg hi, if_neg (show i ∉ t.erase.1.discovered from hi),
        show toposortVisit g ⟨i :: t.erase.1.stack, t.erase.1.discovered, t.erase.1.finished⟩ t.erase.2 =
          (toposortVisitTagged g { t with stack := (i, false) :: t.stack }).map TaggedPhase1.erase
          from (toposortVisitTagged_erase g { t with stack := (i, false) :: t.stack }).symm]
      cases toposortVisitTagged g { t with stack := (i, false) :: t.stack } with
      | error c => rfl
      | ok t' => exact toposortRootsTagged_erase g is t'

/-! ## The tags -/

/-- The tag of the topmost entry of `x` in a tagged stack; `none` if `x` is not on it. -/
def topTag (x : Fin n) : List (Fin n × Bool) → Option Bool
  | [] => none
  | (y, b) :: s => if y = x then some b else topTag x s

section tags

variable {x y i nx : Fin n} {b : Bool} {s : List (Fin n × Bool)}

theorem topTag_cons_self : topTag x ((x, b) :: s) = some b := by simp [topTag]

theorem topTag_cons_of_ne (h : y ≠ x) : topTag x ((y, b) :: s) = topTag x s := by
  simp [topTag, h]

/-- Untagged entries of other nodes pushed on top hide nothing of `x`. -/
theorem topTag_untagged {P : List (Fin n)} (h : x ∉ P) :
    topTag x (P.map (·, false) ++ s) = topTag x s := by
  induction P with
  | nil => rfl
  | cons w P ih =>
    rw [List.mem_cons, not_or] at h
    rw [List.map_cons, List.cons_append, topTag_cons_of_ne (Ne.symm h.1), ih h.2]

/-- The nodes of the tagged entries. -/
theorem mem_tagged : y ∈ (s.filter (·.2)).map Prod.fst ↔ (y, true) ∈ s := by
  constructor
  · intro h
    obtain ⟨⟨a, c⟩, hm, rfl⟩ := List.mem_map.1 h
    obtain ⟨hm, hc⟩ := List.mem_filter.1 hm
    simp only at hc
    exact hc ▸ hm
  · intro h
    exact List.mem_map.2 ⟨(y, true), List.mem_filter.2 ⟨h, rfl⟩, rfl⟩

theorem tagged_nodup_tail (h : ((((y, b) :: s).filter (·.2)).map Prod.fst).Nodup) :
    ((s.filter (·.2)).map Prod.fst).Nodup :=
  h.sublist (((List.sublist_cons_self _ _).filter _).map _)

end tags

/-- The invariant of the tagged stack, and of the log. -/
structure TagInv (t : TaggedPhase1 n) : Prop where
  finished_sub : t.finished ⊆ t.discovered
  /-- A tagged entry is a node discovered and not yet finished... -/
  tagged_gray : ∀ x, (x, true) ∈ t.stack → x ∈ t.discovered ∧ x ∉ t.finished
  /-- ...and such a node's topmost entry is tagged... -/
  gray_top : ∀ x ∈ t.discovered, x ∉ t.finished → topTag x t.stack = some true
  /-- ...and tagged once. -/
  tagged_nodup : ((t.stack.filter (·.2)).map Prod.fst).Nodup
  /-- Every pop so far appended its node exactly when its entry was tagged. -/
  pops_eq : ∀ x b a, (x, b, a) ∈ t.pops → a = b

namespace TagInv

variable {g : Graph n} {nx i : Fin n} {b : Bool} {s : List (Fin n × Bool)}
  {d f : Finset (Fin n)} {fs : List (Fin n)} {log : List (Fin n × Bool × Bool)}

/-- Logging a pop that appends exactly when its entry was tagged keeps the log's law. -/
theorem pops_eq_append (h : ∀ x b a, (x, b, a) ∈ log → a = b) {c a' : Bool} (ha : a' = c) :
    ∀ x b a, (x, b, a) ∈ log ++ [(nx, c, a')] → a = b := by
  intro x b a hp
  rcases List.mem_append.1 hp with hp | hp
  · exact h x b a hp
  · obtain ⟨-, rfl, rfl⟩ := by simpa using hp
    exact ha

theorem init : TagInv (⟨[], ∅, ∅, [], []⟩ : TaggedPhase1 n) :=
  ⟨subset_rfl, by simp, by simp, List.nodup_nil, by simp⟩

/-- A new root goes on the stack untagged. -/
theorem root {t : TaggedPhase1 n} (I : TagInv t) (hi : i ∉ t.discovered) :
    TagInv { t with stack := (i, false) :: t.stack } := by
  refine ⟨I.finished_sub, fun x hx => ?_, fun x hxd hxf => ?_, by simpa using I.tagged_nodup,
    I.pops_eq⟩
  · rcases List.mem_cons.1 hx with h | h
    · simp at h
    · exact I.tagged_gray x h
  · rw [topTag_cons_of_ne (by rintro rfl; exact hi hxd)]
    exact I.gray_top x hxd hxf

/-- Discovering the node on top tags its entry and pushes its undiscovered neighbours over it,
untagged. -/
theorem discover (hx : nx ∉ d) (I : TagInv ⟨(nx, b) :: s, d, f, fs, log⟩) (ns : List (Fin n)) :
    TagInv ⟨(pushUnvisited (insert nx d) ns []).map (·, false) ++ (nx, true) :: s,
      insert nx d, f, fs, log⟩ := by
  have hP : ∀ w ∈ pushUnvisited (insert nx d) ns [], w ∉ insert nx d := fun w hw => by
    simp only [mem_pushUnvisited, List.not_mem_nil, or_false] at hw
    exact hw.2
  have hs : ∀ x, (x, true) ∈ s → x ∈ d ∧ x ∉ f := fun x h =>
    I.tagged_gray x (List.mem_cons_of_mem _ h)
  refine ⟨I.finished_sub.trans (Finset.subset_insert _ _), fun x hx' => ?_, fun x hxd hxf => ?_,
    ?_, I.pops_eq⟩
  · rcases List.mem_append.1 hx' with h | h
    · simp at h
    · rcases List.mem_cons.1 h with h | h
      · obtain rfl := (Prod.mk.inj h).1
        exact ⟨Finset.mem_insert_self _ _, fun h => hx (I.finished_sub h)⟩
      · exact (hs x h).imp (Finset.mem_insert_of_mem) id
  · rw [topTag_untagged fun h => hP x h hxd]
    by_cases hxn : x = nx
    · subst hxn; exact topTag_cons_self
    · rw [topTag_cons_of_ne (Ne.symm hxn)]
      have := I.gray_top x ((Finset.mem_insert.1 hxd).resolve_left hxn) hxf
      rwa [topTag_cons_of_ne (Ne.symm hxn)] at this
  · have htag : ((List.map (·, false) (pushUnvisited (insert nx d) ns []) ++ (nx, true) :: s).filter
        (·.2)).map Prod.fst = nx :: (s.filter (·.2)).map Prod.fst := by
      simp [List.filter_map, Function.comp_def]
    dsimp only
    rw [htag]
    exact List.nodup_cons.2 ⟨fun h => hx (hs nx (mem_tagged.1 h)).1,
      tagged_nodup_tail I.tagged_nodup⟩

/-- Popping a node discovered and not finished: its entry was the tagged one, and it is
appended. -/
theorem finish (hx : nx ∈ d) (hf : nx ∉ f) (I : TagInv ⟨(nx, b) :: s, d, f, fs, log⟩) :
    TagInv ⟨s, d, insert nx f, fs ++ [nx], log ++ [(nx, b, true)]⟩ := by
  have hb : b = true := by simpa [topTag_cons_self] using I.gray_top nx hx hf
  subst hb
  have hns : (nx, true) ∉ s := fun h => by
    have := I.tagged_nodup
    simp only [List.filter_cons, if_true, List.map_cons] at this
    exact (List.nodup_cons.1 this).1 (mem_tagged.2 h)
  refine ⟨Finset.insert_subset hx I.finished_sub, fun x hx' => ?_, fun x hxd hxf => ?_,
    tagged_nodup_tail I.tagged_nodup, pops_eq_append I.pops_eq rfl⟩
  · have := I.tagged_gray x (List.mem_cons_of_mem _ hx')
    exact ⟨this.1, by rw [Finset.mem_insert, not_or]; exact ⟨fun h => hns (h ▸ hx'), this.2⟩⟩
  · rw [Finset.mem_insert, not_or] at hxf
    have := I.gray_top x hxd hxf.2
    rwa [topTag_cons_of_ne (Ne.symm hxf.1)] at this

/-- Popping a finished node: its entry was a stale copy, and nothing is appended. -/
theorem skip (hf : nx ∈ f) (I : TagInv ⟨(nx, b) :: s, d, f, fs, log⟩) :
    TagInv ⟨s, d, f, fs, log ++ [(nx, b, false)]⟩ := by
  have hb : b = false := by
    cases b
    · rfl
    · exact absurd hf (I.tagged_gray nx (List.mem_cons_self _ _)).2
  refine ⟨I.finished_sub, fun x hx' => I.tagged_gray x (List.mem_cons_of_mem _ hx'),
    fun x hxd hxf => ?_, tagged_nodup_tail I.tagged_nodup, pops_eq_append I.pops_eq hb.symm⟩
  have := I.gray_top x hxd hxf
  rwa [topTag_cons_of_ne (by rintro rfl; exact hxf hf)] at this

end TagInv

theorem toposortVisitTagged_inv {g : Graph n} {t t' : TaggedPhase1 n}
    (h : toposortVisitTagged g t = .ok t') (I : TagInv t) : TagInv t' := by
  induction t using toposortVisitTagged.induct g with
  | case1 d f fs log =>
    simp only [toposortVisitTagged, Except.ok.injEq] at h
    exact h ▸ I
  | case2 nx b s d f fs log hx hloop =>
    rw [toposortVisitTagged, if_pos hx, if_pos hloop] at h; cases h
  | case3 nx b s d f fs log hx hloop ih =>
    rw [toposortVisitTagged, if_pos hx, if_neg hloop] at h
    exact ih h (I.discover hx _)
  | case4 nx b s d f fs log hx hf ih =>
    rw [toposortVisitTagged, if_neg hx, if_pos hf] at h
    exact ih h (I.finish (not_not.1 hx) hf)
  | case5 nx b s d f fs log hx hf ih =>
    rw [toposortVisitTagged, if_neg hx, if_neg hf] at h
    exact ih h (I.skip (not_not.1 hf))

theorem toposortRootsTagged_inv {g : Graph n} : ∀ {is : List (Fin n)} {t t' : TaggedPhase1 n},
    toposortRootsTagged g is t = .ok t' → TagInv t → TagInv t'
  | [], _, _, h, I => by cases h; exact I
  | i :: is, t, t', h, I => by
    rw [toposortRootsTagged] at h
    split_ifs at h with hi
    · exact toposortRootsTagged_inv h I
    · split at h
      · cases h
      · next t₁ h₁ => exact toposortRootsTagged_inv h (toposortVisitTagged_inv h₁ (I.root hi))

/-- **Phase 1 of `toposort`.**  When it completes without finding a self-loop,
`finish_stack` lists every node exactly once; in the tagged run, which takes the same steps
and builds the same `finish_stack`, every pop appends its node exactly when its entry is the
copy the node was discovered on; and for every edge `u → v`, `v` comes before `u` in
`finish_stack` or `v` reaches `u`. -/
theorem toposort_phase1 (g : Graph n) {dfs : DfsPostOrder n} {fs : List (Fin n)}
    (h : toposortRoots g g.nodeIdentifiers DfsPostOrder.empty [] = .ok (dfs, fs)) :
    fs.Nodup ∧ (∀ v, v ∈ fs) ∧
      (∃ t, toposortRootsTagged g g.nodeIdentifiers ⟨[], ∅, ∅, [], []⟩ = .ok t ∧
        t.finishStack = fs ∧ ∀ x b a, (x, b, a) ∈ t.pops → a = b) ∧
      ∀ u v, g.Adj u v → Before fs v u ∨ g.Reach v u := by
  obtain ⟨hnd, hall, hedge, -⟩ := toposortRoots_complete h
  have he := toposortRootsTagged_erase g g.nodeIdentifiers ⟨[], ∅, ∅, [], []⟩
  rw [show (TaggedPhase1.erase ⟨[], ∅, ∅, [], []⟩ : DfsPostOrder n × List (Fin n)) =
    (DfsPostOrder.empty, []) from rfl, h] at he
  cases ht : toposortRootsTagged g g.nodeIdentifiers ⟨[], ∅, ∅, [], []⟩ with
  | error c => rw [ht] at he; cases he
  | ok t =>
    rw [ht] at he
    have hfs : t.erase.2 = fs := congrArg Prod.snd (Except.ok.inj he)
    exact ⟨hnd, hall, ⟨t, rfl, hfs, (toposortRootsTagged_inv ht TagInv.init).pops_eq⟩, hedge⟩

theorem toposort_phase1_twoCycle :
    toposortRoots twoCycleGraph twoCycleGraph.nodeIdentifiers DfsPostOrder.empty [] =
        .ok (⟨[], {0, 1}, {0, 1}⟩, [1, 0]) ∧
      ([1, 0] : List (Fin 2)).Nodup ∧ (∀ v, v ∈ ([1, 0] : List (Fin 2))) ∧
      (∃ t, toposortRootsTagged twoCycleGraph twoCycleGraph.nodeIdentifiers ⟨[], ∅, ∅, [], []⟩ =
          .ok t ∧ t.finishStack = [1, 0] ∧ ∀ x b a, (x, b, a) ∈ t.pops → a = b) ∧
      ∀ u v, twoCycleGraph.Adj u v → Before [1, 0] v u ∨ twoCycleGraph.Reach v u := by
  have h : toposortRoots twoCycleGraph twoCycleGraph.nodeIdentifiers DfsPostOrder.empty [] =
      .ok (⟨[], {0, 1}, {0, 1}⟩, [1, 0]) := by
    simp [toposortRoots, toposortVisit, DfsPostOrder.empty, pushUnvisited, twoCycleGraph]
    decide
  exact ⟨h, toposort_phase1 twoCycleGraph h⟩

end Petgraph
