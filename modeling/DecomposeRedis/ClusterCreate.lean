/-
The layout that `redis-cli --cluster create` plans (redis-cli.c), before it is optimised.

The nodes are new ones, with their names and addresses; a pointer to a node is its place in
the list.  They are put into one array for each address, the arrays are emptied in turn
into one array (`interleaveLoop`), its first nodes become masters and get slots
(`slotsLoop`), and the others are assigned to them (`assignPass`), in a second pass those
that are left over.

The array of the replicas is a window in a larger allocation, whose start and length the
search changes.  `sizeof(**interleaved)` is the size of a node, not of a pointer, so that
the allocation has room for `nodeWords` pointers for each node, all null at first.  A
function is `none` where an assertion fails, a null pointer is followed or an access is
out of bounds.
-/
import DecomposeRedis.Sds
import Mathlib.Data.Rat.Floor

namespace ClusterCreate

open Function

abbrev Bytes := Sds.Bytes

/-- `clusterManagerNode`, as `create` reads it. -/
structure NodeInfo where
  name : Bytes
  ip : Bytes
  deriving DecidableEq

/-- `CLUSTER_MANAGER_SLOTS` -/
def managerSlots : ℕ := 16384

/-- `CLUSTER_MANAGER_MASTERS_COUNT` -/
def mastersCount (nodes replicas : ℕ) : ℕ := nodes / (replicas + 1)

/-- Pointers in the memory of a node: its slots alone take that much. -/
def nodeWords : ℕ := 2048

/-! ### Nodes by address -/

/-- `clusterManagerNodeArray`; `base` is `nodes - alloc`. -/
structure NodeArray where
  alloc : List (Option ℕ)
  base : ℕ
  len : ℕ
  count : ℕ

/-- `clusterManagerNodeArrayInit` -/
def NodeArray.init (allocLen : ℕ) : NodeArray := ⟨List.replicate allocLen none, 0, allocLen, 0⟩

/-- `clusterManagerNodeArrayAdd` -/
def NodeArray.add (a : NodeArray) (node : ℕ) : Option NodeArray :=
  if 0 < a.len ∧ a.count < a.len ∧ a.base + a.count < a.alloc.length then
    some { a with alloc := a.alloc.set (a.base + a.count) (some node), count := a.count + 1 }
  else none

/-- `clusterManagerNodeArrayShift` -/
def NodeArray.shift (a : NodeArray) : Option (Option ℕ × NodeArray) :=
  if 0 < a.len then
    a.alloc[a.base]?.map fun node =>
      (node, { a with base := a.base + 1, len := a.len - 1,
                      count := if node = none then a.count else a.count - 1 })
  else none

/-- The addresses so far, each with its nodes. -/
abbrev Groups := List (Bytes × NodeArray)

/-- One node goes to the array of its address, which may be a new one. -/
def groupByIp (nodeLen : ℕ) (ip : Bytes) (node : ℕ) : Groups → Option Groups
  | [] => ((NodeArray.init nodeLen).add node).map fun a => [(ip, a)]
  | (ip', a) :: groups =>
    if ip' = ip then (a.add node).map fun a => (ip', a) :: groups
    else (groupByIp nodeLen ip node groups).map ((ip', a) :: ·)

/-- The loop over the nodes. -/
def groupNodes (nodeLen : ℕ) : ℕ → List NodeInfo → Groups → Option Groups
  | _, [], groups => some groups
  | node, n :: nodes, groups =>
    (groupByIp nodeLen n.ip node groups).bind (groupNodes nodeLen (node + 1) nodes)

/-- One round: a node of each array that has one. -/
def interleaveRound : Groups → Option (Groups × List (Option ℕ))
  | [] => some ([], [])
  | (ip, a) :: groups =>
    if 0 < a.count then
      a.shift.bind fun x => (interleaveRound groups).map fun y => ((ip, x.2) :: y.1, x.1 :: y.2)
    else (interleaveRound groups).map fun y => ((ip, a) :: y.1, y.2)

/-- The rounds. -/
def interleaveLoop (nodeLen : ℕ) : ℕ → Groups → List (Option ℕ) → Option (List (Option ℕ))
  | fuel, groups, interleaved =>
    if nodeLen ≤ interleaved.length then some interleaved
    else
      match fuel with
      | 0 => none
      | fuel + 1 =>
        (interleaveRound groups).bind fun x => interleaveLoop nodeLen fuel x.1 (interleaved ++ x.2)

/-! ### Slots -/

/-- The slots of the nodes. -/
structure SlotTable where
  slots : ℕ → ℕ → Bool
  slotsCount : ℕ → ℕ

/-- `lround`: to the nearest integer, halves away from zero. -/
def lround (x : ℚ) : ℤ := if 0 ≤ x then ⌊x + 1 / 2⌋ else ⌈x - 1 / 2⌉

/-- The loop that gives slots to a master, from `j` on. -/
def fillSlots (master : ℕ) : ℕ → ℕ → SlotTable → Option SlotTable
  | 0, _, st => some st
  | left + 1, j, st =>
    if j < managerSlots then
      fillSlots master left (j + 1)
        ⟨update st.slots master (update (st.slots master) j true),
          update st.slotsCount master (st.slotsCount master + 1)⟩
    else none

/-- The loop over the masters. -/
def slotsLoop (mastersCount : ℕ) (masters : ℕ → Option ℕ) :
    ℕ → ℕ → ℤ → ℚ → SlotTable → Option SlotTable
  | 0, _, _, _, st => some st
  | left + 1, i, first, cursor, st =>
    (masters i).bind fun master =>
      let slotsPerNode : ℚ := managerSlots / mastersCount
      let last := lround (cursor + slotsPerNode - 1)
      let last := if (managerSlots : ℤ) < last ∨ i + 1 = mastersCount then
        (managerSlots : ℤ) - 1 else last
      let last := if last < first then first else last
      (fillSlots master (last + 1 - first).toNat first.toNat
          { st with slotsCount := update st.slotsCount master 0 }).bind fun st =>
        slotsLoop mastersCount masters left (i + 1) (last + 1) (cursor + slotsPerNode) st

/-! ### Replicas -/

/-- The loop that moves the replicas one place to the front. -/
def rotateLoop (base : ℕ) : ℕ → ℕ → (ℕ → Option ℕ) → ℕ → Option ℕ
  | 0, _, cells => cells
  | left + 1, i, cells =>
    rotateLoop base left (i + 1) (update cells (base + i) (cells (base + i + 1)))

/-- The rotation; without replicas the write is before the window. -/
def rotate (cells : ℕ → Option ℕ) (base len : ℕ) : ℕ → Option ℕ :=
  update (rotateLoop base (len - 1) 0 cells) (base + len - 1) (cells base)

/-- The replicas that are left, in a window of the allocation, and the assignments. -/
structure Work where
  cells : ℕ → Option ℕ
  base : ℕ
  len : ℕ
  available : ℕ
  replicate : ℕ → Option Bytes

/-- The search from index `j` on: a node with another address, and else the first node. -/
def searchReplica (nodes : List NodeInfo) (size : ℕ) (ip : Bytes) (cells : ℕ → Option ℕ)
    (base : ℕ) :
    ℕ → ℕ → Option ℕ → Option (Option ℕ × Option ℕ)
  | 0, _, firstNodeIdx => some (none, firstNodeIdx)
  | left + 1, j, firstNodeIdx =>
    if base + j < size then
      match cells (base + j) with
      | none => searchReplica nodes size ip cells base left (j + 1) firstNodeIdx
      | some node =>
        nodes[node]?.bind fun n =>
          if n.ip ≠ ip then some (some j, firstNodeIdx)
          else searchReplica nodes size ip cells base left (j + 1) (firstNodeIdx.or (some j))
    else none

/-- The slave gets its master. -/
def Work.assign (w : Work) (slave : ℕ) (master : NodeInfo) : Work :=
  { w with available := w.available - 1, replicate := update w.replicate slave (some master.name) }

/-- One slave is looked for and assigned; the result has no state if there is none. -/
def assignOne (nodes : List NodeInfo) (size : ℕ) (master : NodeInfo) (w : Work) :
    Option (Option Work) :=
  (searchReplica nodes size master.ip w.cells w.base w.len 0 none).bind fun
    | (some j, _) =>
      (w.cells (w.base + j)).map fun slave =>
        some ({ w with cells := update w.cells (w.base + j) none }.assign slave master)
    | (none, some firstNodeIdx) =>
      (w.cells (w.base + firstNodeIdx)).map fun slave =>
        -- `interleaved_len -= (interleaved - (interleaved + firstNodeIdx))`
        some ({ w with len := w.len + firstNodeIdx, base := w.base + firstNodeIdx + 1 }.assign
          slave master)
    | (none, none) => some none

/-- The loop over the replicas of a master. -/
def assignLoop (nodes : List NodeInfo) (size : ℕ) (unused : Bool) (master : Option ℕ) :
    ℕ → Work → Option Work
  | 0, w => some w
  | left + 1, w =>
    if w.available = 0 then some w
    else
      master.bind fun p => nodes[p]?.bind fun n =>
        (assignOne nodes size n w).bind fun
          | none => some w
          | some w => if unused then some w else assignLoop nodes size unused master left w

/-- The loop over the masters. -/
def assignPass (nodes : List NodeInfo) (size replicas : ℕ) (unused : Bool) :
    ℕ → ℕ → Work → Option Work
  | 0, _, w => some w
  | left + 1, i, w =>
    (assignLoop nodes size unused (w.cells i) replicas w).bind
      (assignPass nodes size replicas unused left (i + 1))

/-! ### The plan -/

/-- What `create` has written to the nodes before it optimises. -/
structure Plan where
  masters : List ℕ
  slots : ℕ → ℕ → Bool
  slotsCount : ℕ → ℕ
  replicate : ℕ → Option Bytes

/-- The assignment of all replicas, with the pass for those that are left over. -/
def assignReplicas (nodes : List NodeInfo) (size replicas mastersCount : ℕ) (w : Work) :
    Option Work :=
  (assignPass nodes size replicas false mastersCount 0 w).bind fun w =>
    if 0 < w.available then assignPass nodes size replicas true mastersCount 0 w else some w

/-- `clusterManagerCommandCreate`, from the list of nodes to the plan. -/
def createPlan (nodes : List NodeInfo) (replicas : ℕ) : Option Plan :=
  let nodeLen := nodes.length
  let count := mastersCount nodeLen replicas
  if count < 3 then none
  else
    (groupNodes nodeLen 0 nodes []).bind fun groups =>
      (interleaveLoop nodeLen nodeLen groups []).bind fun interleaved =>
        let cells : ℕ → Option ℕ := fun i => (interleaved[i]?).join
        (slotsLoop count cells count 0 0 0 ⟨fun _ _ => false, fun _ => 0⟩).bind fun st =>
          let w : Work := ⟨rotate cells count (nodeLen - count), count, nodeLen - count,
            nodeLen - count, fun _ => none⟩
          (assignReplicas nodes (nodeLen * nodeWords) replicas count w).map fun w =>
            ⟨(List.range count).filterMap cells, st.slots, st.slotsCount, w.replicate⟩

end ClusterCreate
