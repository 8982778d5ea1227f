import Mettle.Ir.Cfg
import Mettle.Lib.Dominance
import Mettle.Lib.Loop

/-!
# The dominator tree

`ir_dom_build` and its queries. A depth-first walk orders the blocks, the iteration of Cooper, Harvey
and Kennedy finds the immediate dominators, a tour of the tree stamps every block, and two sweeps with
the same runners count and record the frontiers. An array over the blocks is a function, and `none`
stands for `IR_BLOCK_NONE`. Every loop has a bound on its iterations; an index taken out of
`IR_BLOCK_NONE` has no result.
-/

namespace Mettle.Ir

open Mettle.Lib (loop Flow)

/-- Blocks whose edges are recorded at both ends. -/
structure FlowGraph where
  blocks : List BasicBlock
  entry : ℕ
  entry_lt : entry < blocks.length
  mirrored : ∀ a < blocks.length, ∀ b < blocks.length,
    b ∈ (blocks.getD a default).successors ↔ a ∈ (blocks.getD b default).predecessors

/-- The edges between the blocks of the array. -/
def FlowGraph.flow (g : FlowGraph) : Flow ℕ where
  edge a b := a < g.blocks.length ∧ b < g.blocks.length ∧ b ∈ (g.blocks.getD a default).successors
  root := g.entry

/-- The graph of a function with instructions: `ir_function_rebuild_cfg` appends every edge at both
ends and enters at the first block. -/
def Function.flowGraph (fn : Function) (h : 0 < fn.blockStarts.length) : FlowGraph where
  blocks := fn.blocks
  entry := 0
  entry_lt := by simpa [Function.blocks] using h
  mirrored := by
    intro a ha b hb
    simp only [Function.blocks, List.length_map, List.length_range] at ha hb
    simp [Function.blocks, ha, hb, List.getD_eq_getElem?_getD, Function.blockPredecessors]

/-- `IRDomTree`. -/
structure DomTree where
  idom : ℕ → Option ℕ
  rpoIndex : ℕ → Option ℕ
  order : List ℕ
  childHead : ℕ → Option ℕ
  childNext : ℕ → Option ℕ
  enter : ℕ → ℕ
  leave : ℕ → ℕ
  frontier : ℕ → ℕ
  frontierStart : ℕ → ℕ
  frontierCount : ℕ → ℕ
  frontierTotal : ℕ
  blockCount : ℕ
  entry : ℕ

namespace Dom

variable (blocks : List BasicBlock) (entry : ℕ)

/-! ## The order of the blocks -/

/-- The depth-first walk: the blocks on the stack, the top first, each with its next successor. -/
structure Walk where
  stack : List (ℕ × ℕ)
  seen : ℕ → Bool
  postorder : List ℕ

def Walk.step (w : Walk) : Option Walk :=
  match w.stack with
  | [] => some w
  | (block, next) :: below =>
    match (blocks.getD block default).successors[next]? with
    | some successor =>
      if successor < blocks.length ∧ w.seen successor = false then
        some { w with
          stack := (successor, 0) :: (block, next + 1) :: below
          seen := Function.update w.seen successor true }
      else some { w with stack := (block, next + 1) :: below }
    | none => some { w with stack := below, postorder := w.postorder ++ [block] }

def Walk.start : Walk where
  stack := [(entry, 0)]
  seen := Function.update (fun _ => false) entry true
  postorder := []

/-- `dom->order`: the blocks the walk leaves, the last one first. -/
def order (fuel : ℕ) : Option (List ℕ) :=
  (loop (fun w => !w.stack.isEmpty) (Walk.step blocks) fuel (Walk.start entry)).map
    (·.postorder.reverse)

/-- `dom->rpo_index`. -/
def rpoIndex (order : List ℕ) : ℕ → Option ℕ :=
  order.zipIdx.foldl (fun index e => Function.update index e.1 (some e.2)) fun _ => none

/-! ## The immediate dominators -/

/-- `IR_BLOCK_NONE` is larger than any index. -/
def indexLt : Option ℕ → Option ℕ → Bool
  | some i, some j => i < j
  | some _, none => true
  | none, _ => false

variable (rpo : ℕ → Option ℕ) (idom : ℕ → Option ℕ)

/-- `while (rpo_index[a] > rpo_index[b]) a = idom[a]`. -/
def climb (fuel a b : ℕ) : Option ℕ := loop (fun a => indexLt (rpo b) (rpo a)) idom fuel a

/-- The two fingers. -/
def intersect (fuel a b : ℕ) : Option ℕ :=
  (loop (fun s : ℕ × ℕ => s.1 ≠ s.2)
    (fun s => do
      let a ← climb rpo idom fuel s.1 s.2
      let b ← climb rpo idom fuel s.2 a
      some (a, b))
    fuel (a, b)).map (·.1)

/-- One predecessor is met with the candidate. -/
def meet (fuel : ℕ) (candidate : Option ℕ) (pred : ℕ) : Option (Option ℕ) :=
  if blocks.length ≤ pred ∨ idom pred = none then some candidate
  else
    match candidate with
    | none => some (some pred)
    | some c => (intersect rpo idom fuel pred c).map some

/-- The candidate for the immediate dominator of a block. -/
def candidate (fuel block : ℕ) : Option (Option ℕ) :=
  (blocks.getD block default).predecessors.foldlM (meet blocks rpo idom fuel) none

omit idom in
/-- One block of a round. The flag is `changed`. -/
def visit (fuel : ℕ) (s : (ℕ → Option ℕ) × Bool) (block : ℕ) : Option ((ℕ → Option ℕ) × Bool) :=
  if block = entry then some s
  else do
    match ← candidate blocks rpo s.1 fuel block with
    | none => some s
    | some c =>
      if s.1 block = some c then some s else some (Function.update s.1 block (some c), true)

omit rpo idom in
/-- `dom->idom`: rounds over the blocks in order until one changes nothing. -/
def immediate (fuel : ℕ) (order : List ℕ) : Option (ℕ → Option ℕ) :=
  (loop (·.2) (fun s => order.foldlM (visit blocks entry (rpoIndex order) fuel) (s.1, false)) fuel
    (Function.update (fun _ => none) entry (some entry), true)).map (·.1)

/-! ## The stamps -/

/-- `child_head` and `child_next`. -/
structure Children where
  head : ℕ → Option ℕ
  next : ℕ → Option ℕ

/-- A block becomes the first child of its parent. -/
def linkChild (s : Children) (block : ℕ) : Children :=
  match idom block with
  | none => s
  | some parent =>
    if block = entry then s
    else
      { head := Function.update s.head parent (some block)
        next := Function.update s.next block (s.head parent) }

/-- The children, linked from the last block of the order on. -/
def children (order : List ℕ) : Children :=
  order.reverse.foldl (linkChild entry idom) ⟨fun _ => none, fun _ => none⟩

/-- The tour of the tree: the stack with its top first, and `child_cursor`. -/
structure Tour where
  stack : List ℕ
  cursor : ℕ → Option ℕ
  enter : ℕ → ℕ
  leave : ℕ → ℕ
  clock : ℕ

def Tour.step (next : ℕ → Option ℕ) (t : Tour) : Option Tour :=
  match t.stack with
  | [] => some t
  | block :: below =>
    match t.cursor block with
    | some child =>
      some { t with
        stack := child :: block :: below
        cursor := Function.update t.cursor block (next child)
        enter := Function.update t.enter child t.clock
        clock := t.clock + 1 }
    | none =>
      some { t with
        stack := below
        leave := Function.update t.leave block t.clock
        clock := t.clock + 1 }

def Tour.start (head : ℕ → Option ℕ) : Tour where
  stack := [entry]
  cursor := head
  enter := Function.update (fun _ => 0) entry 0
  leave := fun _ => 0
  clock := 1

/-- `dom->enter` and `dom->leave`. -/
def tour (fuel : ℕ) (c : Children) : Option Tour :=
  loop (fun t => !t.stack.isEmpty) (Tour.step c.next) fuel (Tour.start entry c.head)

/-! ## The frontiers -/

section Frontier

variable {σ : Type*} (stamp : σ → ℕ → ℕ → σ)

/-- A runner climbs from a predecessor of a block to the immediate dominator of the block; a runner
that stops at a block which is its own dominator is `none` as well. -/
def runner (fuel block pred : ℕ) (s : σ) : Option σ :=
  (loop (fun s : σ × Option ℕ => s.2 ≠ none ∧ s.2 ≠ idom block)
    (fun s => s.2.map fun r => (stamp s.1 r block, if idom r = some r then none else idom r))
    fuel (s, some pred)).map (·.1)

/-- The runners of one block, from its predecessors in turn. -/
def runners (fuel : ℕ) (s : σ) (block : ℕ) : Option σ :=
  if (blocks.getD block default).predecessors.length < 2 then some s
  else
    (blocks.getD block default).predecessors.foldlM
      (fun s pred =>
        if blocks.length ≤ pred ∨ idom pred = none then some s
        else runner idom stamp fuel block pred s) s

/-- The sweep over all blocks. -/
def sweep (fuel : ℕ) (s : σ) : Option σ :=
  (List.range blocks.length).foldlM (runners blocks idom stamp fuel) s

end Frontier

/-- The counting sweep. -/
def counts (fuel : ℕ) : Option (ℕ → ℕ) :=
  sweep blocks idom (fun counts r _ => Function.update counts r (counts r + 1)) fuel fun _ => 0

/-- `frontier_start`, from the counts. -/
def frontierStart (counts : ℕ → ℕ) (b : ℕ) : ℕ := ((List.range b).map counts).sum

/-- `frontier` and `frontier_count` while they are filled. -/
structure Filled where
  cells : ℕ → ℕ
  count : ℕ → ℕ

/-- A block is recorded with a runner unless it is there already. -/
def record (start : ℕ → ℕ) (s : Filled) (r block : ℕ) : Filled :=
  if (List.range (s.count r)).any fun k => s.cells (start r + k) = block then s
  else
    { cells := Function.update s.cells (start r + s.count r) block
      count := Function.update s.count r (s.count r + 1) }

/-- The filling sweep. -/
def fill (fuel : ℕ) (start : ℕ → ℕ) : Option Filled :=
  sweep blocks idom (record start) fuel ⟨fun _ => 0, fun _ => 0⟩

/-- `ir_dom_build`; it builds nothing when the entry is not a block. -/
def build (fuel : ℕ) : Option DomTree :=
  if entry < blocks.length then do
    let order ← order blocks entry fuel
    let idom ← immediate blocks entry fuel order
    let c := children entry idom order
    let t ← tour entry fuel c
    let counts ← counts blocks idom fuel
    let filled ← fill blocks idom fuel (frontierStart counts)
    some { idom, rpoIndex := rpoIndex order, order, childHead := c.head, childNext := c.next,
           enter := t.enter, leave := t.leave, frontier := filled.cells,
           frontierStart := frontierStart counts, frontierCount := filled.count,
           frontierTotal := frontierStart counts blocks.length, blockCount := blocks.length, entry }
  else none

end Dom

/-- `ir_block_dominates`. -/
def DomTree.blockDominates (dom : DomTree) (a b : ℕ) : Bool :=
  a < dom.blockCount ∧ b < dom.blockCount ∧ dom.rpoIndex a ≠ none ∧ dom.rpoIndex b ≠ none ∧
    dom.enter a ≤ dom.enter b ∧ dom.leave b ≤ dom.leave a

/-- `ir_function_dominance_frontier`. -/
def DomTree.dominanceFrontier (dom : DomTree) (block : ℕ) : List ℕ :=
  if block < dom.blockCount then
    (List.range (dom.frontierCount block)).map fun k => dom.frontier (dom.frontierStart block + k)
  else []

end Mettle.Ir
