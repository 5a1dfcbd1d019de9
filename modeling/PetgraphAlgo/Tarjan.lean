import PetgraphAlgo.Graph
import Mathlib.Data.List.Sort

/-!
# `TarjanScc` and `tarjan_scc`

`TarjanScc::run(g, f)` and `tarjan_scc(g)` of `src/algo/mod.rs`.  The state holds the
discovery counter `index`, one `NodeData` record per node (discovery index, lowlink, on-stack
flag) and the candidate stack, a `Vec` whose top is its end.  `visit(v)` is recursive.  It
numbers `v`, pushes it, and walks `neighbors(v)`: an unvisited neighbour is visited and its
lowlink folded into `v`'s, and a neighbour still on the stack lowers `v`'s lowlink to its
index.  When `v`'s lowlink is its own index, `rposition` walks the stack down to `v`, clearing
the on-stack flags, and the slice from `v` to the top is passed to `f` and truncated.

The model keeps the slices passed to `f`, in order, in the state (`emitted`); `tarjan_scc`
collects them reversed.  The recursion of `visit` takes a depth bound `fuel`, so that it is
structural; every call visits a new node, so `n + 1` levels are never exhausted
(`Petgraph.TarjanScc.visit_spec` in `TarjanSpec`).
-/

namespace Petgraph

variable {n : ℕ}

/-- `!0`, the lowlink `NodeData` starts with. -/
def usizeMax : ℕ := 2 ^ 64 - 1

/-- `NodeData`: a node's discovery index, its lowlink and whether it is on the stack. -/
structure NodeData where
  index : Option ℕ
  lowlink : ℕ
  onStack : Bool
  deriving DecidableEq, Repr

/-- `TarjanScc<N>`: the discovery counter, the per-node records and the stack, together with
the slices passed to the callback so far. -/
structure TarjanScc (n : ℕ) where
  index : ℕ
  nodes : Fin n → NodeData
  stack : List (Fin n)
  /-- The slices `f` has been called with, in order. -/
  emitted : List (List (Fin n))

namespace TarjanScc

/-- `TarjanScc::new()`. -/
def new : TarjanScc n := ⟨0, fun _ => ⟨none, usizeMax, false⟩, [], []⟩

/-- `node![v].lowlink = l`. -/
def setLowlink (st : TarjanScc n) (v : Fin n) (l : ℕ) : TarjanScc n :=
  { st with nodes := Function.update st.nodes v { st.nodes v with lowlink := l } }

/-- The start of `visit(v)`: `node_v.index = Some(v_index)`, `node_v.lowlink = v_index`,
`node_v.on_stack = true`, `self.stack.push(v)`, `self.index += 1`. -/
def push (st : TarjanScc n) (v : Fin n) : TarjanScc n :=
  { st with
    nodes := Function.update st.nodes v ⟨some st.index, st.index, true⟩
    stack := st.stack ++ [v]
    index := st.index + 1 }

/-- One round of `for w in g.neighbors(v) { ... }`, with `call` the recursive
`self.visit(w, g, f)`. -/
def visitNeighbor (call : Fin n → TarjanScc n → TarjanScc n) (v w : Fin n) (st : TarjanScc n) :
    TarjanScc n :=
  match (st.nodes w).index with
  | none =>
    let st := call w st
    st.setLowlink v (min (st.nodes v).lowlink (st.nodes w).lowlink)
  | some wIndex =>
    if (st.nodes w).onStack then st.setLowlink v (min (st.nodes v).lowlink wIndex) else st

/-- `self.stack.iter().rposition(|&w| { nodes[w].on_stack = false; w == v })`, walking the
stack from its top (the list here is the stack reversed): every node passed clears its
on-stack flag, and the position of `v` from the bottom is returned. -/
def rposition (v : Fin n) : List (Fin n) → (Fin n → NodeData) → Option ℕ × (Fin n → NodeData)
  | [], nodes => (none, nodes)
  | w :: ws, nodes =>
    let nodes := Function.update nodes w { nodes w with onStack := false }
    if w = v then (some ws.length, nodes) else rposition v ws nodes

/-- The end of `visit(v)`: if `v`'s lowlink is its index, pass `self.stack[start..]` to `f` and
truncate the stack to `start`.  The `None` branch is `unwrap()` failing, which never happens:
`v` is on the stack. -/
def popScc (v : Fin n) (st : TarjanScc n) : TarjanScc n :=
  match (st.nodes v).index with
  | some vIndex =>
    if (st.nodes v).lowlink = vIndex then
      match rposition v st.stack.reverse st.nodes with
      | (some start, nodes) =>
        { st with
          nodes := nodes
          stack := st.stack.take start
          emitted := st.emitted ++ [st.stack.drop start] }
      | (none, _) => st
    else st
  | none => st

/-- `visit(v)`, at most `fuel` calls deep. -/
def visit (g : Graph n) : ℕ → Fin n → TarjanScc n → TarjanScc n
  | 0, _, st => st
  | fuel + 1, v, st =>
    match (st.nodes v).index with
    | some _ => st
    | none =>
      popScc v ((g.neighbors v).foldl (fun st w => visitNeighbor (visit g fuel) v w st) (st.push v))

/-- `run(g, f)`: reset the records, then `for n in g.node_identifiers() { self.visit(n, g, f) }`. -/
def run (g : Graph n) (st : TarjanScc n) : TarjanScc n :=
  g.nodeIdentifiers.foldl (fun st v => visit g (n + 1) v st)
    { st with nodes := fun _ => ⟨none, usizeMax, false⟩ }

/-! ## What each operation does to the state -/

section lemmas

variable {st : TarjanScc n} {u v : Fin n} {l : ℕ}

@[simp] theorem setLowlink_index : (st.setLowlink v l).index = st.index := rfl
@[simp] theorem setLowlink_stack : (st.setLowlink v l).stack = st.stack := rfl
@[simp] theorem setLowlink_emitted : (st.setLowlink v l).emitted = st.emitted := rfl

theorem setLowlink_nodes_of_ne (h : u ≠ v) : (st.setLowlink v l).nodes u = st.nodes u :=
  Function.update_noteq h _ _

@[simp] theorem setLowlink_nodes_index : ((st.setLowlink v l).nodes u).index = (st.nodes u).index := by
  by_cases h : u = v
  · subst h; simp [setLowlink]
  · rw [setLowlink_nodes_of_ne h]

@[simp] theorem setLowlink_nodes_onStack :
    ((st.setLowlink v l).nodes u).onStack = (st.nodes u).onStack := by
  by_cases h : u = v
  · subst h; simp [setLowlink]
  · rw [setLowlink_nodes_of_ne h]

@[simp] theorem setLowlink_lowlink_self : ((st.setLowlink v l).nodes v).lowlink = l := by
  simp [setLowlink]

@[simp] theorem push_index : (st.push v).index = st.index + 1 := rfl
@[simp] theorem push_stack : (st.push v).stack = st.stack ++ [v] := rfl
@[simp] theorem push_emitted : (st.push v).emitted = st.emitted := rfl

@[simp] theorem push_nodes_self : (st.push v).nodes v = ⟨some st.index, st.index, true⟩ := by
  simp [push]

theorem push_nodes_of_ne (h : u ≠ v) : (st.push v).nodes u = st.nodes u :=
  Function.update_noteq h _ _

/-- The records once the on-stack flags of the nodes `S` are cleared. -/
def clearOnStack (S : List (Fin n)) (nodes : Fin n → NodeData) : Fin n → NodeData :=
  fun u => if u ∈ S then { nodes u with onStack := false } else nodes u

theorem clearOnStack_of_not_mem {S : List (Fin n)} {nodes : Fin n → NodeData} (h : u ∉ S) :
    clearOnStack S nodes u = nodes u :=
  if_neg h

@[simp] theorem clearOnStack_index {S : List (Fin n)} {nodes : Fin n → NodeData} :
    (clearOnStack S nodes u).index = (nodes u).index := by
  unfold clearOnStack; split <;> rfl

@[simp] theorem clearOnStack_lowlink {S : List (Fin n)} {nodes : Fin n → NodeData} :
    (clearOnStack S nodes u).lowlink = (nodes u).lowlink := by
  unfold clearOnStack; split <;> rfl

theorem clearOnStack_onStack {S : List (Fin n)} {nodes : Fin n → NodeData} :
    (clearOnStack S nodes u).onStack = true ↔ (nodes u).onStack = true ∧ u ∉ S := by
  unfold clearOnStack; split <;> simp_all

/-- `rposition` on a stack that holds `v` once, below the nodes `ws`: it returns the position
of `v`, and clears the flags of `v` and of the nodes above it, and only those. -/
theorem rposition_eq {ws : List (Fin n)} (hv : v ∉ ws) (rest : List (Fin n))
    (nodes : Fin n → NodeData) :
    rposition v (ws ++ v :: rest) nodes = (some rest.length, clearOnStack (v :: ws) nodes) := by
  induction ws generalizing nodes with
  | nil =>
    simp only [List.nil_append, rposition, if_true]
    congr 1
    funext u
    by_cases h : u = v
    · subst h; simp [clearOnStack]
    · simp [clearOnStack, h]
  | cons w ws ih =>
    have hwv : w ≠ v := fun h => hv (h ▸ List.mem_cons_self _ _)
    rw [List.cons_append, rposition]
    simp only [if_neg hwv]
    rw [ih (fun h => hv (List.mem_cons_of_mem _ h))]
    congr 1
    funext u
    by_cases h : u = w
    · subst h; simp [clearOnStack, hwv]
    · simp [clearOnStack, h, Function.update_noteq h]

/-- A root: its lowlink is its own index, and it sits on the stack below the nodes `L`.  The
slice `v :: L` goes to the callback and leaves the stack, clearing its flags. -/
theorem popScc_of_root {pre L : List (Fin n)} (hst : st.stack = pre ++ v :: L) (hv : v ∉ L)
    {i : ℕ} (hi : (st.nodes v).index = some i) (hl : (st.nodes v).lowlink = i) :
    popScc v st = { st with
      nodes := clearOnStack (v :: L) st.nodes
      stack := pre
      emitted := st.emitted ++ [v :: L] } := by
  have hrev : st.stack.reverse = L.reverse ++ v :: pre.reverse := by simp [hst]
  have hS : clearOnStack (v :: L.reverse) st.nodes = clearOnStack (v :: L) st.nodes := by
    funext u; simp [clearOnStack]
  simp only [popScc, hi, hl, if_true]
  rw [hrev, rposition_eq (mt List.mem_reverse.1 hv), hS]
  simp [hst]

/-- A node whose lowlink is below its index stays on the stack. -/
theorem popScc_of_ne {i : ℕ} (hi : (st.nodes v).index = some i) (hl : (st.nodes v).lowlink ≠ i) :
    popScc v st = st := by
  simp [popScc, hi, hl]

theorem visit_of_some {g : Graph n} {fuel i : ℕ} (h : (st.nodes v).index = some i) :
    visit g fuel v st = st := by
  cases fuel <;> simp [visit, h]

theorem visit_succ_of_none {g : Graph n} {fuel : ℕ} (h : (st.nodes v).index = none) :
    visit g (fuel + 1) v st =
      popScc v ((g.neighbors v).foldl (fun st w => visitNeighbor (visit g fuel) v w st) (st.push v)) := by
  simp [visit, h]

end lemmas

end TarjanScc

/-- `tarjan_scc(g)`: the slices `TarjanScc::new().run(g, ..)` passes to the callback, each
reversed. -/
def tarjanScc (g : Graph n) : List (List (Fin n)) :=
  ((TarjanScc.run g TarjanScc.new).emitted).map List.reverse

end Petgraph
