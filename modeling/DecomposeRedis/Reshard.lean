/-
The plans of `redis-cli --cluster reshard` and `--cluster rebalance` (redis-cli.c).

A plan is a list of slots with the nodes they are taken from (`computeReshardTable`).  The
shares of the sources are computed in floating point in the source; here they are exact.  The
order that `qsort` gives to equal elements is not known, so that it is a parameter.

`rebalance` keeps the bitmaps and the balances of the nodes; `slots_count` is not updated by
the moves.  A move is recorded with the number of slots that its source owned before it;
whether it succeeds is a parameter too, and what it does to the bitmaps is what
`moveSlot` does with `CLUSTER_MANAGER_OPT_UPDATE`.
-/
import DecomposeRedis.ClusterManager
import Mathlib.Data.Rat.Floor

namespace ClusterManager

open Function
open ClusterCreate (managerSlots)
open Networking (text cstring)

/-- What `qsort` promises for a comparison of keys. -/
structure Sorts (qsort : (ℕ → ℤ) → List ℕ → List ℕ) : Prop where
  perm : ∀ key nodes, (qsort key nodes).Perm nodes
  sorted : ∀ key nodes, (qsort key nodes).Pairwise fun a b => key a ≤ key b

variable (c : Cluster) (qsort : (ℕ → ℤ) → List ℕ → List ℕ)

/-! ### The table -/

/-- `clusterManagerReshardTableItem` -/
structure ReshardItem where
  source : ℕ
  slot : ℕ
  deriving DecidableEq

/-- How many slots a source provides: its share, rounded up for the first source only. -/
def quota (numslots tot slotsCount : ℕ) (first : Bool) : ℤ :=
  let n : ℚ := (numslots : ℚ) / tot * slotsCount
  if first then ⌈n⌉ else ⌊n⌋

/-- The loop over the slots of a source. -/
def takeSlots (slots : ℕ → Bool) (source : ℕ) (max : ℤ) (numslots : ℕ) :
    List ℕ → ℕ → List ReshardItem → List ReshardItem
  | [], _, moved => moved
  | j :: js, count, moved =>
    if !slots j then takeSlots slots source max numslots js count moved
    else if max ≤ count ∨ numslots ≤ moved.length then moved
    else takeSlots slots source max numslots js (count + 1) (moved ++ [⟨source, j⟩])

/-- The loop over the sorted sources. -/
def reshardLoop (slots : Slots) (slotsCount : ℕ → ℕ) (numslots tot : ℕ) :
    ℕ → List ℕ → List ReshardItem → List ReshardItem
  | _, [], moved => moved
  | i, node :: sorted, moved =>
    reshardLoop slots slotsCount numslots tot (i + 1) sorted
      (takeSlots (slots node) node (quota numslots tot (slotsCount node) (i = 0)) numslots
        (List.range managerSlots) 0 moved)

/-- `clusterManagerComputeReshardTable`; the sources are sorted by descending `slots_count`. -/
def computeReshardTable (slots : Slots) (slotsCount : ℕ → ℕ) (sources : List ℕ) (numslots : ℕ) :
    List ReshardItem :=
  reshardLoop slots slotsCount numslots (sources.map slotsCount).sum 0
    (qsort (fun n => -(slotsCount n : ℤ)) sources) []

/-! ### The sources -/

/-- `clusterNodeForResharding`: the node if it may be used, and whether it is an error if not. -/
def nodeForResharding (id : Bytes) (target : Option ℕ) : Option ℕ × Bool :=
  match nodeByName c id with
  | none => (none, true)
  | some n =>
    if (c.node n).slave then (none, true)
    else if target.any fun t => (c.node n).name = (c.node t).name then (none, false)
    else (some n, false)

/-- The masters that `all` stands for. -/
def allSources (target : ℕ) : List ℕ :=
  (List.range c.size).filter fun n =>
    !((c.node n).slave || (c.node n).replicate.isSome) && (c.node n).name ≠ (c.node target).name

/-- The pieces of `--cluster-from`: an empty last one is not looked at. -/
def fromPieces (piece : Bytes) : Bytes → List Bytes
  | [] => if piece = [] then [] else [piece]
  | b :: bs => if [b] = text "," then piece :: fromPieces [] bs else fromPieces (piece ++ [b]) bs

/-- Where the ids of the sources come from: the lines that are read, or `--cluster-from`. -/
inductive Origin where
  | typed (lines : List Bytes)
  | given (ids : Bytes)

def Origin.ids : Origin → List Bytes
  | typed lines => lines.takeWhile (· ≠ text "done")
  | given ids => fromPieces [] (cstring ids)

/-- The source nodes of some ids. -/
def collectSources (target : ℕ) : List Bytes → List ℕ → Option (List ℕ)
  | [], sources => some sources
  | id :: ids, sources =>
    if id = text "all" then some (allSources c target)
    else
      match nodeForResharding c id (some target) with
      | (some n, _) => collectSources target ids (sources ++ [n])
      | (none, true) => none
      | (none, false) => collectSources target ids sources

/-- The sources that `clusterManagerCommandReshard` goes on with. -/
def acceptedSources (receiver : Bytes) (origin : Origin) : Option (List ℕ) :=
  match (nodeForResharding c receiver none).1 with
  | none => none
  | some target =>
    match collectSources c target origin.ids [] with
    | none => none
    | some sources => if sources = [] then none else some sources

/-- The plan of `clusterManagerCommandReshard`. -/
def reshardPlan (slots : Slots) (slotsCount : ℕ → ℕ) (receiver : Bytes) (origin : Origin)
    (numslots : ℕ) :
    Option (List ReshardItem) :=
  (acceptedSources c receiver origin).map fun sources =>
    computeReshardTable qsort slots slotsCount sources numslots

/-! ### Rebalancing -/

/-- The slots that a node owns according to its bitmap. -/
def ownedSlots (slots : Slots) (n : ℕ) : List ℕ := (List.range managerSlots).filter (slots n)

structure Move where
  slot : ℕ
  source : ℕ
  target : ℕ
  /-- The slots of the source before the move. -/
  owned : ℕ
  deriving DecidableEq

/-- The balances, the bitmaps and the moves so far. -/
structure Rebalance where
  balance : ℕ → ℤ
  slots : Slots
  moves : List Move

/-- One pass over the nodes that spreads what rounding left over. -/
def spreadPass (balance : ℕ → ℤ) (total : ℤ) : List ℕ → (ℕ → ℤ) × ℤ
  | [] => (balance, total)
  | n :: nodes =>
    if balance n ≤ 0 ∧ 0 < total then spreadPass (update balance n (balance n - 1))
      (total - 1) nodes
    else spreadPass balance total nodes

/-- `while (total_balance > 0)` -/
def spreadLoop (involved : List ℕ) : ℕ → (ℕ → ℤ) → ℤ → Option (ℕ → ℤ)
  | 0, _, _ => none
  | fuel + 1, balance, total =>
    if 0 < total then
      let r := spreadPass balance total involved
      spreadLoop involved fuel r.1 r.2
    else some balance

/-- How `clusterManagerCommandRebalance` is left. -/
inductive Outcome where
  | balanced
  | tableLength
  | moveFailed
  deriving DecidableEq

variable (moveOk : Move → Bool) (simulate : Bool)

/-- The moves of a table, up to the first one that fails. -/
def moveItems (dst : ℕ) : List ReshardItem → Slots → List Move → Bool × Slots × List Move
  | [], slots, moves => (true, slots, moves)
  | item :: items, slots, moves =>
    let m : Move := ⟨item.slot, item.source, dst, (ownedSlots slots item.source).length⟩
    if moveOk m then
      moveItems dst items ((slots.set item.source item.slot false).set dst item.slot true)
        (moves ++ [m])
    else (false, slots, moves)

/-- The body of the loop for `numslots` slots, up to the updates of the balances. -/
def moveTable (slotsCount : ℕ → ℕ) (dst src numslots : ℕ) (st : Rebalance) : Outcome × Rebalance :=
  if 0 < numslots then
    let table := computeReshardTable qsort st.slots slotsCount [src] numslots
    if table.length ≠ numslots then (.tableLength, st)
    else if simulate then (.balanced, st)
    else
      let r := moveItems moveOk dst table st.slots st.moves
      (if r.1 then .balanced else .moveFailed, ⟨st.balance, r.2.1, r.2.2⟩)
  else (.balanced, st)

/-- `while (dst_idx < src_idx)` -/
def moveLoop (slotsCount : ℕ → ℕ) (sorted : List ℕ) :
    ℕ → ℕ → ℕ → Rebalance → Option (Outcome × Rebalance)
  | 0, _, _, _ => none
  | fuel + 1, dstIdx, srcIdx, st =>
    if dstIdx < srcIdx then
      match sorted[dstIdx]?, sorted[srcIdx]? with
      | some dst, some src =>
        let numslots := min (st.balance dst).natAbs (st.balance src).natAbs
        let r := moveTable qsort moveOk simulate slotsCount dst src numslots st
        if r.1 = .balanced then
          let balance := update st.balance dst (st.balance dst + numslots)
          let balance := update balance src (balance src - numslots)
          moveLoop slotsCount sorted fuel (if balance dst = 0 then dstIdx + 1 else dstIdx)
            (if balance src = 0 then srcIdx - 1 else srcIdx) ⟨balance, r.2.slots, r.2.moves⟩
        else some r
      | _, _ => none
    else some (.balanced, st)

/-- `clusterManagerCommandRebalance`, from the expected numbers of slots on, when the threshold
is reached. -/
def rebalance (involved : List ℕ) (slotsCount expected : ℕ → ℕ) (slots : Slots) (fuel : ℕ) :
    Option (Outcome × Rebalance) :=
  let balance : ℕ → ℤ := fun n => (slotsCount n : ℤ) - expected n
  (spreadLoop involved fuel balance (involved.map balance).sum).bind fun balance =>
    moveLoop qsort moveOk simulate slotsCount (qsort balance involved) fuel 0 (involved.length - 1)
      ⟨balance, slots, []⟩

end ClusterManager
