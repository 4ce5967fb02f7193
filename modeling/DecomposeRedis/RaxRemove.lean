/-
Removing a key from the radix tree (`raxRemove` of rax.c).

The removal clears the key, gives back the nodes that are no longer needed
(`cleanupLoop`, `raxRemoveChild`) and, if a chain of single-child nodes that
are not keys came up, merges it into one compressed node (`recompress`).
-/
import DecomposeRedis.RaxWalk

open RoseTree

namespace Rax

variable {V : Type}

/-! ### Unlinking a child -/

/-- The scan of the child pointers of `parent` for `child`.  Both
`raxFindParentLink` and `raxRemoveChild` assume a match and scan on beyond the
node otherwise, so there is no result then. -/
def childIndex (parent : RaxNode V) (ptr child : NodePtr) : Option ℕ :=
  (List.range parent.children.length).find? fun i => ptr ++ [i] = child

/-- `raxRemoveChild`: the node without the child, whether it moved, and the
allocator after the `rax_realloc` that shrinks a plain node. -/
def raxRemoveChild (parent : RaxNode V) (ptr child : NodePtr) (a : Allocs) :
    Option (RaxNode V × Bool × Allocs) :=
  let l := parent.label
  if l.iscompr then
    let l' : RaxHdr V := { l with isnull := false, iscompr := false, data := [] }
    some (node (if l.iskey then raxSetData l' (raxGetData l) else l') [], false, a)
  else
    (childIndex parent ptr child).map fun i =>
      (node { l with data := l.data.eraseIdx i } (parent.children.eraseIdx i),
        a.head = .moved, a.tail)

/-- What the loop that gives nodes back leaves: the node it stopped at, the
last node it freed, the rest of the stack and the node counter. -/
structure Cleanup where
  h : NodePtr
  child : Option NodePtr
  stack : List NodePtr
  numnodes : ℕ

/-- The loop that frees nodes upward until the head, a key or a node with more
children. -/
def cleanupLoop (head : RaxNode V) : List NodePtr → NodePtr → Option NodePtr → ℕ → Option Cleanup
  | [], h, child, numnodes =>
    if h = [] then some ⟨h, child, [], numnodes⟩ else none
  | ptr :: stack, h, child, numnodes =>
    if h = [] then some ⟨h, child, ptr :: stack, numnodes⟩
    else
      (head.nodeAt ptr).bind fun n =>
        if endsChain n.label then some ⟨ptr, some h, stack, numnodes - 1⟩
        else cleanupLoop head stack ptr (some h) (numnodes - 1)

/-! ### Merging a chain -/

/-- Climb to the upper end of the chain; the second result is its parent. -/
def climb (head : RaxNode V) : List NodePtr → NodePtr → Option (NodePtr × Option NodePtr)
  | [], h => some (h, none)
  | ptr :: stack, h =>
    (head.nodeAt ptr).bind fun n =>
      if endsChain n.label then some (h, some ptr) else climb head stack ptr

mutual
/-- First scan of the chain: how many bytes and nodes can be merged, as long as
the field `size` can hold the length. -/
def scanChain : RaxNode V → ℕ → ℕ → Option (ℕ × ℕ)
  | node l cs, comprsize, nodes =>
    if l.size = 0 then some (comprsize, nodes) else scanLast cs comprsize nodes
/-- The rest of the body of the first scan, at the last child. -/
def scanLast : List (RaxNode V) → ℕ → ℕ → Option (ℕ × ℕ)
  | [], _, _ => none
  | [c], comprsize, nodes =>
    if endsChain c.label then some (comprsize, nodes)
    else if raxNodeMaxSize < comprsize + c.label.size then some (comprsize, nodes)
    else scanChain c (comprsize + c.label.size) (nodes + 1)
  | _ :: c :: cs, comprsize, nodes => scanLast (c :: cs) comprsize nodes
end

/-- What the second scan collects: the bytes it copies, the number of nodes it
frees, and the first node it keeps. -/
structure Merged (V : Type) where
  bytes : List UInt8
  freed : ℕ
  rest : RaxNode V

mutual
/-- Second scan of the chain, which copies and frees. -/
def mergeChain : RaxNode V → Option (Merged V)
  | node l cs => if l.size = 0 then some ⟨[], 0, node l cs⟩ else mergeLast l.data cs
/-- The rest of the body of the second scan, at the last child. -/
def mergeLast (data : List UInt8) : List (RaxNode V) → Option (Merged V)
  | [] => none
  | [c] =>
    if endsChain c.label then some ⟨data, 1, c⟩
    else (mergeChain c).map fun m => ⟨data ++ m.bytes, m.freed + 1, m.rest⟩
  | _ :: c :: cs => mergeLast data (c :: cs)
end

/-- `raxPadding`, for pointers of eight bytes. -/
def raxPadding (nodesize : ℕ) : ℕ := (8 - (nodesize + 4) % 8) % 8

/-- The node a chain is merged into. -/
def mergedNode (bytes : List UInt8) (rest : RaxNode V) : RaxNode V :=
  node { iskey := false, isnull := false, iscompr := true, data := bytes, value := none } [rest]

/-- The recompression at the end of `raxRemove`.  The merged node is allocated
for the length of the first scan; the second scan stays inside it as long as it
copies no more than that, the padding and the child pointer (which is set last). -/
def recompress (t : RaxTree V) (h : NodePtr) (stack : List NodePtr) (a : Allocs) :
    Option (RaxTree V) := do
  let (start, parent) ← climb t.head stack h
  let first ← t.head.nodeAt start
  let (comprsize, nodes) ← scanChain first first.label.size 1
  if 1 < nodes then
    if a.head = .null then some t
    else
      let m ← mergeChain first
      if comprsize + raxPadding comprsize + 8 < m.bytes.length then none
      else
        let new := mergedNode (m.bytes.take comprsize) m.rest
        let t' := { t with numnodes := t.numnodes + 1 - m.freed }
        match parent with
        | none => some { t' with head := new }
        | some ptr =>
          let pn ← t.head.nodeAt ptr
          let _ ← childIndex pn ptr start
          some { t' with head := t.head.replace start new }
  else some t

/-! ### `raxRemove` -/

/-- The tree after a call, the returned integer and what is stored through
`old`, if anything. -/
structure RemoveResult (V : Type) where
  rax : RaxTree V
  ret : ℕ
  old : Option (Option V)

/-- Link the reallocated node `new`, formerly at `h`, into the tree. -/
def relink (head new : RaxNode V) (h : NodePtr) (moved : Bool) (stack : List NodePtr) :
    Option (RaxNode V) :=
  if moved then
    match stack.head? with
    | none => some new
    | some ptr => (head.nodeAt ptr).bind fun pn =>
      (childIndex pn ptr h).map fun _ => head.replace h new
  else some (head.replace h new)

/-- The part of `raxRemove` for a node without children: free it and what it
leaves useless above, unlink, and recompress if a single child is left. -/
def removeLeaf (t : RaxTree V) (h : NodePtr) (ts : RaxStack) (a : Allocs) :
    Option (RaxTree V) := do
  let cl ← cleanupLoop t.head ts.stack h none t.numnodes
  match cl.child with
  | none => some { t with numnodes := cl.numnodes }
  | some child =>
    let n ← t.head.nodeAt cl.h
    let (new, moved, a) ← raxRemoveChild n cl.h child a
    let head ← relink t.head new cl.h moved cl.stack
    let t := { t with head := head, numnodes := cl.numnodes }
    if new.label.size = 1 ∧ new.label.iskey = false ∧ ts.oom = false then
      recompress t cl.h cl.stack a
    else some t

/-- `raxRemove` -/
def raxRemove (t : RaxTree V) (s : Key) (a : Allocs) : Option (RemoveResult V) := do
  let w ← raxLowWalk t.head s (some raxStackInit) a
  if w.misses s then some ⟨t, 0, none⟩
  else
    let ts ← w.ts
    let l := w.h.label
    let t := { t with
      head := t.head.replace w.ptr (node { l with iskey := false } w.h.children)
      numele := t.numele - 1 }
    let t ←
      if l.size = 0 then removeLeaf t w.ptr ts w.allocs
      else if l.size = 1 ∧ ts.oom = false then recompress t w.ptr ts.stack w.allocs
      else some t
    some ⟨t, 1, some (raxGetData l)⟩

end Rax
