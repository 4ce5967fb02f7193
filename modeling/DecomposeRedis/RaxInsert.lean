/-
Inserting a key into the radix tree (`raxGenericInsert` of rax.c).
-/
import DecomposeRedis.RaxRemove

open RoseTree

namespace Rax

variable {V : Type}

/-- What a call does to `errno`. -/
inductive Errno where
  | untouched
  | zero
  | enomem
  deriving DecidableEq

/-- The tree after a call, the returned integer, what is stored through `old`,
if anything, and `errno`. -/
structure InsertResult (V : Type) where
  rax : RaxTree V
  ret : ℕ
  old : Option (Option V)
  errno : Errno

/-- `raxReallocForData`: whether there is room for the value pointer. -/
def raxReallocForData (data : Option V) (a : Allocs) : Bool × Allocs :=
  match data with
  | none => (true, a)
  | some _ => (a.head ≠ .null, a.tail)

/-- The allocations of `raxAddChild` and `raxCompressNode`: the new child, then
room in the node itself. -/
def growAllocs (a : Allocs) : Bool × Allocs :=
  if a.head = .null then (false, a.tail)
  else (a.tail.head ≠ .null, a.tail.tail)

/-- The node of the key is there: make it a key or update it. -/
def insertHere (t : RaxTree V) (w : Walk V) (data : Option V) (overwrite : Bool) :
    InsertResult V :=
  let l := w.h.label
  let room :=
    if !l.iskey || (l.isnull && overwrite) then (raxReallocForData data w.allocs).1 else true
  let head := t.head.replace w.ptr (node (raxSetData l data) w.h.children)
  if room = false then ⟨t, 0, none, .enomem⟩
  else if l.iskey then
    ⟨if overwrite then { t with head := head } else t, 0, some (raxGetData l), .zero⟩
  else ⟨{ t with head := head, numele := t.numele + 1 }, 1, none, .untouched⟩

/-- A node over one string and one child that is not a key: compressed if the
string is longer than one byte. -/
def stringNode (iskey isnull : Bool) (s : List UInt8) : RaxHdr V :=
  { iskey := iskey, isnull := isnull, iscompr := 1 < s.length, data := s, value := none }

/-- The postfix node of ALGO 1: what remains of the string after the byte that
differs, or directly the old child. -/
def splitPostfix (l : RaxHdr V) (j : ℕ) (next : RaxNode V) : RaxNode V :=
  if l.size - j - 1 ≠ 0 then node (stringNode false false (l.data.drop (j + 1))) [next] else next

/-- The split node of ALGO 1, with the byte that differs as its only edge.  If
it takes the place of the old node, it also takes over its key. -/
def splitNode (l : RaxHdr V) (j : ℕ) (next : RaxNode V) : RaxNode V :=
  let new : RaxNode V := raxNewNode ((l.data.drop j).take 1) [splitPostfix l j next]
  if j = 0 && l.iskey then node (raxSetData new.label (raxGetData l)) new.children else new

/-- The trimmed node of ALGO 1: the part of the string before the split. -/
def splitTrimmed (l : RaxHdr V) (j : ℕ) : RaxHdr V :=
  let new := stringNode l.iskey l.isnull (l.data.take j)
  if l.iskey && !l.isnull then raxSetData new (raxGetData l) else new

/-- ALGO 1: the compressed node stopped at is split at the byte that differs.
The result is the new tree with the position of the split node, which is about
to get a second child; inside it is `none` if an allocation failed. -/
def splitDiffer (t : RaxTree V) (w : Walk V) : Option (Option (RaxTree V × NodePtr × Allocs)) :=
  let l := w.h.label
  let trimmedlen := w.j
  let postfixlen := l.size - w.j - 1
  -- All nodes are allocated before the tree is touched.
  let a₁ := w.allocs.tail
  let a₂ := if trimmedlen ≠ 0 then a₁.tail else a₁
  let a₃ := if postfixlen ≠ 0 then a₂.tail else a₂
  if w.allocs.head = .null ∨ (trimmedlen ≠ 0 ∧ a₁.head = .null) ∨
      (postfixlen ≠ 0 ∧ a₂.head = .null) then some none
  else
    w.h.children.getLast?.map fun next =>
      let split := splitNode l w.j next
      let extra := if postfixlen ≠ 0 then 1 else 0
      if trimmedlen = 0 then
        some ({ t with
          head := t.head.replace w.ptr split
          numnodes := t.numnodes + extra }, w.ptr, a₃)
      else
        some ({ t with
          head := t.head.replace w.ptr (node (splitTrimmed l w.j) [split])
          numnodes := t.numnodes + 1 + extra }, w.ptr ++ [0], a₃)

/-- The trimmed node of ALGO 2, which makes the same node in another way. -/
def trimmedAtEnd (l : RaxHdr V) (j : ℕ) : RaxHdr V :=
  let new := stringNode false false (l.data.take j)
  if l.iskey then raxSetData new (raxGetData l) else new

/-- ALGO 2: the key ends inside the compressed node stopped at, which is cut in
two, the lower part being the key. -/
def splitAtEnd (t : RaxTree V) (w : Walk V) (data : Option V) : Option (InsertResult V) :=
  let l := w.h.label
  if w.allocs.head = .null ∨ w.allocs.tail.head = .null then some ⟨t, 0, none, .enomem⟩
  else
    w.h.children.getLast?.map fun next =>
      let postfixNode := raxSetData (stringNode true false (l.data.drop w.j)) data
      ⟨{ head := t.head.replace w.ptr (node (trimmedAtEnd l w.j) [node postfixNode [next]])
         numele := t.numele + 1
         numnodes := t.numnodes + 1 }, 1, none, .untouched⟩

/-- The variables of the insertion loop: the tree, the node `h`, the position
in the key and the allocator. -/
structure Insertion (V : Type) where
  rax : RaxTree V
  ptr : NodePtr
  i : ℕ
  allocs : Allocs

/-- The body of the insertion loop after its allocations, at the node `h` with
the bytes `c :: rest` still to insert. -/
def insertStep (st : Insertion V) (h : RaxNode V) (c : UInt8) (rest : Key) : Insertion V :=
  if h.label.size = 0 ∧ rest ≠ [] then
    let comprsize := min (rest.length + 1) raxNodeMaxSize
    { rax := { st.rax with
        head := st.rax.head.replace st.ptr (raxCompressNode h ((c :: rest).take comprsize))
        numnodes := st.rax.numnodes + 1 }
      ptr := st.ptr ++ [0]
      i := st.i + comprsize
      allocs := (growAllocs st.allocs).2 }
  else
    { rax := { st.rax with
        head := st.rax.head.replace st.ptr (raxAddChild h c).1
        numnodes := st.rax.numnodes + 1 }
      ptr := st.ptr ++ [(raxAddChild h c).2]
      i := st.i + 1
      allocs := (growAllocs st.allocs).2 }

/-- The loop that adds the missing nodes; the flag is cleared when it is left
for `oom`.  Each turn consumes a byte of the key or more.  `raxCompressNode` and
`raxAddChild` assert that the node is not compressed. -/
def insertLoop (s : Key) : ℕ → Insertion V → Option (Bool × Insertion V)
  | 0, st => some (true, st)
  | fuel + 1, st =>
    match s.drop st.i with
    | [] => some (true, st)
    | c :: rest =>
      (st.rax.head.nodeAt st.ptr).bind fun h =>
        if h.label.iscompr then none
        else if (growAllocs st.allocs).1 = false then
          some (false, { st with allocs := (growAllocs st.allocs).2 })
        else insertLoop s fuel (insertStep st h c rest)

/-- The exit `oom`: a node without children is made a NULL key and removed. -/
def insertOom (s : Key) (st : Insertion V) : Option (InsertResult V) := do
  let h ← st.rax.head.nodeAt st.ptr
  if h.label.size = 0 then
    let marked := node { h.label with isnull := true, iskey := true } h.children
    let r ← raxRemove { st.rax with
      head := st.rax.head.replace st.ptr marked
      numele := st.rax.numele + 1 } (s.take st.i) st.allocs
    -- `assert(raxRemove(rax,s,i,NULL) != 0)`
    if r.ret = 0 then none else some ⟨r.rax, 0, none, .enomem⟩
  else some ⟨st.rax, 0, none, .enomem⟩

/-- The end of `raxGenericInsert`: add the missing nodes and make the last one
the key. -/
def insertRest (s : Key) (data : Option V) (st : Insertion V) : Option (InsertResult V) := do
  let (finished, st) ← insertLoop s (s.length - st.i) st
  if finished = false then insertOom s st
  else if (raxReallocForData data st.allocs).1 = false then
    insertOom s { st with allocs := (raxReallocForData data st.allocs).2 }
  else
    let h ← st.rax.head.nodeAt st.ptr
    some ⟨{ st.rax with
      head := st.rax.head.replace st.ptr (node (raxSetData h.label data) h.children)
      numele := if h.label.iskey then st.rax.numele else st.rax.numele + 1 },
      1, none, .untouched⟩

/-- `raxGenericInsert` -/
def raxGenericInsert (t : RaxTree V) (s : Key) (data : Option V) (overwrite : Bool)
    (a : Allocs) : Option (InsertResult V) := do
  let w ← raxLowWalk t.head s none a
  if w.i = s.length ∧ (w.h.label.iscompr = false ∨ w.j = 0) then
    some (insertHere t w data overwrite)
  else if w.h.label.iscompr ∧ w.i ≠ s.length then
    match ← splitDiffer t w with
    | none => some ⟨t, 0, none, .enomem⟩
    | some (t, ptr, a) => insertRest s data ⟨t, ptr, w.i, a⟩
  else if w.h.label.iscompr then splitAtEnd t w data
  else insertRest s data ⟨t, w.ptr, w.i, w.allocs⟩

/-- `raxInsert` -/
def raxInsert (t : RaxTree V) (s : Key) (data : Option V) (a : Allocs) :
    Option (InsertResult V) :=
  raxGenericInsert t s data true a

/-- `raxTryInsert` -/
def raxTryInsert (t : RaxTree V) (s : Key) (data : Option V) (a : Allocs) :
    Option (InsertResult V) :=
  raxGenericInsert t s data false a

end Rax
