/-
The doubly linked lists of adlist.c in memory.

`Memory` holds the nodes and the list records, each at its address, and every function of
adlist.c is translated with its writes in their order.  A function is `none` where it uses
a node or a list that is not in memory, or a null pointer.  An allocation takes any
address that is not in use; the addresses are arguments of the calls.  `zmalloc` does not
fail.  The `free` and `match` methods are left out.

`step` makes one call.  `Allowed` says what the caller owes: a node that is passed belongs
to the list that is passed, the two lists of `listJoin` differ, and allocations are fresh.
`Memory.forward` and `Memory.backward` are what is met along `next` and along `prev`.
-/
import Mathlib.Algebra.Order.Ring.Int
import Mathlib.Logic.Function.Basic
import Mathlib.Data.List.Nodup

namespace ListMemory

open Function

variable {α : Type}

/-- `listNode` -/
structure ListNode (α : Type) where
  prev : Option ℕ
  next : Option ℕ
  value : α

/-- `list`; the `dup` method returns `none` for a null pointer. -/
structure ListRecord (α : Type) where
  head : Option ℕ
  tail : Option ℕ
  dup : Option (α → Option α)
  len : ℕ

structure Memory (α : Type) where
  node : ℕ → Option (ListNode α)
  list : ℕ → Option (ListRecord α)

/-- Before the first call. -/
def Memory.empty : Memory α := ⟨fun _ => none, fun _ => none⟩

/-- Write a list record. -/
def Memory.setList (m : Memory α) (l : ℕ) (r : ListRecord α) : Memory α :=
  { m with list := update m.list l (some r) }

/-- Write a new node. -/
def Memory.setNode (m : Memory α) (a : ℕ) (x : ListNode α) : Memory α :=
  { m with node := update m.node a (some x) }

/-- `zfree` of a node. -/
def Memory.freeNode (m : Memory α) (a : ℕ) : Memory α := { m with node := update m.node a none }

/-- Write to a node through a pointer. -/
def Memory.modify (m : Memory α) (p : Option ℕ) (f : ListNode α → ListNode α) : Option (Memory α) :=
  p.bind fun a => (m.node a).map fun x => m.setNode a (f x)

/-- Write to a node if the pointer is not null. -/
def Memory.modifyIf (m : Memory α) (p : Option ℕ) (f : ListNode α → ListNode α) :
    Option (Memory α) :=
  if p = none then some m else m.modify p f

/-- The write `p->prev = q`. -/
def ListNode.setPrev (q : Option ℕ) (x : ListNode α) : ListNode α := { x with prev := q }

/-- The write `p->next = q`. -/
def ListNode.setNext (q : Option ℕ) (x : ListNode α) : ListNode α := { x with next := q }

/-- `listCreate` -/
def listCreate (m : Memory α) (l : ℕ) : Memory α := m.setList l ⟨none, none, none, 0⟩

/-- `listSetDupMethod` -/
def listSetDupMethod (m : Memory α) (l : ℕ) (dup : Option (α → Option α)) : Option (Memory α) :=
  (m.list l).map fun r => m.setList l { r with dup := dup }

/-- The loop of `listEmpty`. -/
def emptyLoop : ℕ → Memory α → Option ℕ → Option (Memory α)
  | 0, m, _ => some m
  | len + 1, m, current =>
    current.bind fun a => (m.node a).bind fun x => emptyLoop len (m.freeNode a) x.next

/-- `listEmpty` -/
def listEmpty (m : Memory α) (l : ℕ) : Option (Memory α) :=
  (m.list l).bind fun r =>
    (emptyLoop r.len m r.head).map fun m =>
      m.setList l { r with head := none, tail := none, len := 0 }

/-- `listRelease` -/
def listRelease (m : Memory α) (l : ℕ) : Option (Memory α) :=
  (listEmpty m l).map fun m => { m with list := update m.list l none }

/-- `listAddNodeHead` -/
def listAddNodeHead (m : Memory α) (l node : ℕ) (value : α) : Option (Memory α) :=
  (m.list l).bind fun r =>
    if r.len = 0 then
      some ((m.setNode node ⟨none, none, value⟩).setList l
        { r with head := some node, tail := some node, len := r.len + 1 })
    else
      ((m.setNode node ⟨none, r.head, value⟩).modify r.head (.setPrev (some node))).map fun m =>
        m.setList l { r with head := some node, len := r.len + 1 }

/-- `listAddNodeTail` -/
def listAddNodeTail (m : Memory α) (l node : ℕ) (value : α) : Option (Memory α) :=
  (m.list l).bind fun r =>
    if r.len = 0 then
      some ((m.setNode node ⟨none, none, value⟩).setList l
        { r with head := some node, tail := some node, len := r.len + 1 })
    else
      ((m.setNode node ⟨r.tail, none, value⟩).modify r.tail (.setNext (some node))).map fun m =>
        m.setList l { r with tail := some node, len := r.len + 1 }

/-- `listInsertNode` -/
def listInsertNode (m : Memory α) (l oldNode node : ℕ) (value : α) (after : Bool) :
    Option (Memory α) :=
  (m.list l).bind fun r => (m.node oldNode).bind fun x =>
    let prev := if after then some oldNode else x.prev
    let next := if after then x.next else some oldNode
    let tail := if after ∧ r.tail = some oldNode then some node else r.tail
    let head := if ¬ after ∧ r.head = some oldNode then some node else r.head
    ((m.setNode node ⟨prev, next, value⟩).modifyIf prev (.setNext (some node))).bind fun m =>
      (m.modifyIf next (.setPrev (some node))).map fun m =>
        m.setList l { r with head := head, tail := tail, len := r.len + 1 }

/-- `listDelNode` -/
def listDelNode (m : Memory α) (l node : ℕ) : Option (Memory α) :=
  (m.list l).bind fun r => (m.node node).bind fun x =>
    let head := if x.prev = none then x.next else r.head
    let tail := if x.next = none then x.prev else r.tail
    (m.modifyIf x.prev (.setNext x.next)).bind fun m =>
      (m.modifyIf x.next (.setPrev x.prev)).map fun m =>
        (m.freeNode node).setList l { r with head := head, tail := tail, len := r.len - 1 }

/-- The directions of an iterator. -/
inductive Direction where
  | startHead | startTail
  deriving DecidableEq

/-- Where an iterator begins (`listGetIterator`, `listRewind`, `listRewindTail`). -/
def ListRecord.start (r : ListRecord α) : Direction → Option ℕ
  | .startHead => r.head
  | .startTail => r.tail

/-- Where `listNext` goes on from a node. -/
def ListNode.onward (x : ListNode α) : Direction → Option ℕ
  | .startHead => x.next
  | .startTail => x.prev

/-- `listNext`: the node that is returned, and the iterator after it. -/
def listNext (m : Memory α) (direction : Direction) : Option ℕ → Option (Option (ℕ × α) × Option ℕ)
  | none => some (none, none)
  | some current => (m.node current).map fun x => (some (current, x.value), x.onward direction)

/-- A loop over `listNext` whose body deletes some of the nodes that it gets, each at once.
The nodes are returned as they were met. -/
def iterLoop (l : ℕ) (direction : Direction) (deletes : ℕ → Bool) :
    ℕ → Memory α → Option ℕ → Option (Memory α × List (ℕ × α))
  | calls, m, next =>
    (listNext m direction next).bind fun
      | (none, _) => some (m, [])
      | (some x, next) =>
        match calls with
        | 0 => none
        | calls + 1 =>
          (if deletes x.1 then listDelNode m l x.1 else some m).bind fun m =>
            (iterLoop l direction deletes calls m next).map fun y => (y.1, x :: y.2)

/-- An iteration over a whole list; at most `len` nodes are returned. -/
def iterate (m : Memory α) (l : ℕ) (direction : Direction) (deletes : ℕ → Bool) :
    Option (Memory α × List (ℕ × α)) :=
  (m.list l).bind fun r => iterLoop l direction deletes r.len m (r.start direction)

/-- The value that a copy gets, `none` if the `dup` method fails. -/
def dupValue (dup : Option (α → Option α)) (value : α) : Option α :=
  match dup with
  | some f => f value
  | none => some value

/-- The loop of `listDup`; the new nodes are at the addresses given.  The copy is released
when its `dup` method fails. -/
def dupLoop (copy : ℕ) (dup : Option (α → Option α)) :
    List ℕ → Memory α → Option ℕ → Option (Memory α × Bool)
  | addrs, m, next =>
    (listNext m .startHead next).bind fun
      | (none, _) => some (m, true)
      | (some x, next) =>
        match addrs with
        | [] => none
        | node :: addrs =>
          match dupValue dup x.2 with
          | none => (listRelease m copy).map fun m => (m, false)
          | some value =>
            (listAddNodeTail m copy node value).bind fun m => dupLoop copy dup addrs m next

/-- `listDup`, and whether it returned a list. -/
def listDup (m : Memory α) (orig copy : ℕ) (addrs : List ℕ) : Option (Memory α × Bool) :=
  (m.list orig).bind fun r =>
    (listSetDupMethod (listCreate m copy) copy r.dup).bind fun m =>
      dupLoop copy r.dup addrs m r.head

/-- The loops of `listIndex`. -/
def indexLoop (m : Memory α) (direction : Direction) : ℕ → Option ℕ → Option (Option ℕ)
  | 0, n => some n
  | _ + 1, none => some none
  | index + 1, some a => (m.node a).bind fun x => indexLoop m direction index (x.onward direction)

/-- `listIndex` -/
def listIndex (m : Memory α) (l : ℕ) (index : ℤ) : Option (Option ℕ) :=
  (m.list l).bind fun r =>
    if index < 0 then indexLoop m .startTail (-index - 1).toNat r.tail
    else indexLoop m .startHead index.toNat r.head

/-- `listRotate` -/
def listRotate (m : Memory α) (l : ℕ) : Option (Memory α) :=
  (m.list l).bind fun r =>
    if r.len ≤ 1 then some m
    else
      r.tail.bind fun tail => (m.node tail).bind fun x =>
        (m.modify x.prev (.setNext none)).bind fun m =>
          (m.modify r.head (.setPrev (some tail))).bind fun m =>
            (m.modify (some tail) (.setPrev none)).bind fun m =>
              (m.modify (some tail) (.setNext r.head)).map fun m =>
                m.setList l { r with head := some tail, tail := x.prev }

/-- `listJoin` -/
def listJoin (m : Memory α) (l o : ℕ) : Option (Memory α) :=
  (m.list l).bind fun r => (m.list o).bind fun s =>
    (m.modifyIf s.head (.setPrev r.tail)).bind fun m =>
      (m.modifyIf r.tail (.setNext s.head)).map fun m =>
        let head := if r.tail = none then s.head else r.head
        let tail := if s.tail = none then r.tail else s.tail
        (m.setList l { r with head := head, tail := tail, len := r.len + s.len }).setList o
          { s with head := none, tail := none, len := 0 }

/-! ### Calls -/

/-- The calls, with the addresses that the allocations return. -/
inductive Call (α : Type) where
  | listCreate (l : ℕ)
  | listSetDupMethod (l : ℕ) (dup : Option (α → Option α))
  | listAddNodeHead (l node : ℕ) (value : α)
  | listAddNodeTail (l node : ℕ) (value : α)
  | listInsertNode (l oldNode node : ℕ) (value : α) (after : Bool)
  | listDelNode (l node : ℕ)
  | listRotate (l : ℕ)
  | listJoin (l o : ℕ)
  | listDup (orig copy : ℕ) (addrs : List ℕ)
  | listEmpty (l : ℕ)
  | listRelease (l : ℕ)
  | listIndex (l : ℕ) (index : ℤ)
  | iterate (l : ℕ) (direction : Direction) (deletes : ℕ → Bool)

/-- What a call returns. -/
inductive Answer (α : Type) where
  | done
  | copied (ok : Bool)
  | node (n : Option ℕ)
  | visited (nodes : List (ℕ × α))
  deriving DecidableEq

def step (m : Memory α) : Call α → Option (Memory α × Answer α)
  | .listCreate l => some (ListMemory.listCreate m l, .done)
  | .listSetDupMethod l dup => (ListMemory.listSetDupMethod m l dup).map (·, .done)
  | .listAddNodeHead l node value => (ListMemory.listAddNodeHead m l node value).map (·, .done)
  | .listAddNodeTail l node value => (ListMemory.listAddNodeTail m l node value).map (·, .done)
  | .listInsertNode l oldNode node value after =>
    (ListMemory.listInsertNode m l oldNode node value after).map (·, .done)
  | .listDelNode l node => (ListMemory.listDelNode m l node).map (·, .done)
  | .listRotate l => (ListMemory.listRotate m l).map (·, .done)
  | .listJoin l o => (ListMemory.listJoin m l o).map (·, .done)
  | .listDup orig copy addrs =>
    (ListMemory.listDup m orig copy addrs).map fun x => (x.1, .copied x.2)
  | .listEmpty l => (ListMemory.listEmpty m l).map (·, .done)
  | .listRelease l => (ListMemory.listRelease m l).map (·, .done)
  | .listIndex l index => (ListMemory.listIndex m l index).map fun n => (m, .node n)
  | .iterate l direction deletes =>
    (ListMemory.iterate m l direction deletes).map fun x => (x.1, .visited x.2)

/-- The nodes met from a pointer on, `none` if there are more than the number given. -/
def Memory.walk (m : Memory α) (direction : Direction) : ℕ → Option ℕ → Option (List (ℕ × α))
  | _, none => some []
  | 0, some _ => none
  | n + 1, some a =>
    (m.node a).bind fun x => (m.walk direction n (x.onward direction)).map ((a, x.value) :: ·)

/-- The nodes met from the head along `next`. -/
def Memory.forward (m : Memory α) (l : ℕ) : Option (List (ℕ × α)) :=
  (m.list l).bind fun r => m.walk .startHead r.len r.head

/-- The nodes met from the tail along `prev`. -/
def Memory.backward (m : Memory α) (l : ℕ) : Option (List (ℕ × α)) :=
  (m.list l).bind fun r => m.walk .startTail r.len r.tail

/-- A node of a list. -/
def Memory.Has (m : Memory α) (l a : ℕ) : Prop := a ∈ ((m.forward l).getD []).map Prod.fst

instance (m : Memory α) (l a : ℕ) : Decidable (m.Has l a) := List.instDecidableMemOfLawfulBEq _ _

/-- What a caller owes. -/
def Allowed (m : Memory α) : Call α → Prop
  | .listCreate l => (m.list l).isNone
  | .listSetDupMethod l _ | .listRotate l | .listEmpty l | .listRelease l | .listIndex l _
  | .iterate l _ _ => (m.list l).isSome
  | .listAddNodeHead l node _ | .listAddNodeTail l node _ =>
    (m.list l).isSome ∧ (m.node node).isNone
  | .listInsertNode l oldNode node _ _ => m.Has l oldNode ∧ (m.node node).isNone
  | .listDelNode l node => m.Has l node
  | .listJoin l o => (m.list l).isSome ∧ (m.list o).isSome ∧ l ≠ o
  | .listDup orig copy addrs =>
    (m.list orig).isSome ∧ (m.list copy).isNone ∧ addrs.Nodup ∧ (∀ a ∈ addrs, (m.node a).isNone) ∧
      ∀ r ∈ m.list orig, r.len ≤ addrs.length

instance (m : Memory α) (c : Call α) : Decidable (Allowed m c) := by
  cases c <;> unfold Allowed <;> infer_instance

end ListMemory
