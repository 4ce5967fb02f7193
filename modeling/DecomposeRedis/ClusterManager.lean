/-
The repairs of `redis-cli --cluster check` and `--cluster fix` (redis-cli.c), and the
migration of slots.

A function of the cluster manager is a program that sends commands to the nodes, asks the
user, and goes on with the replies (`Manager`).  A pointer to a node is its place in
`cluster_manager.nodes`; of the fields of a node only `slots` is written here, so that it is
passed along (`Slots`).  A reply is `none` where the source has a null pointer; an assertion
that fails and a division by zero end the program.  `fuel` bounds the rounds of a migration.

The order of a dictionary, `rand` and what memory holds behind a string are questions as
well (`Request`), and so is the signature of a node's configuration.  Messages are left out.
-/
import DecomposeRedis.Dialogue
import DecomposeRedis.ClientCommands
import DecomposeRedis.ClusterCreate
import Mathlib.Logic.Equiv.Defs
import Mathlib.Logic.Function.Basic
import Mathlib.Data.List.Infix

namespace ClusterManager

open Dialogue Function
open ClusterCreate (managerSlots)
open Networking (text cstring tolower)

abbrev Bytes := Sds.Bytes

/-! ### Nodes and requests -/

/-- `clusterManagerNode`.  The pairs of `migrating` and `importing` are a slot and the
name of a node. -/
structure Node where
  name : Bytes
  ip : Bytes
  port : ℤ
  slave : Bool
  replicate : Option Bytes
  slots : ℕ → Bool
  migrating : List (ℕ × Bytes)
  importing : List (ℕ × Bytes)

/-- `cluster_manager.nodes` -/
structure Cluster where
  size : ℕ
  node : ℕ → Node

/-- The `slots` of each node. -/
abbrev Slots := ℕ → ℕ → Bool

def Slots.set (slots : Slots) (n slot : ℕ) (b : Bool) : Slots :=
  update slots n (update (slots n) slot b)

/-- What is read of `config`. -/
structure Settings where
  fix : Bool
  replace : Bool
  checkOwners : Bool
  pipeline : ℤ

/-- The last arguments of `CLUSTER SETSLOT` -/
inductive Status
  | stable
  | node (id : Bytes)
  | importing (id : Bytes)
  | migrating (id : Bytes)
  deriving DecidableEq

/-- A range of `CLUSTER SLOTS` with its master; an old server leaves its name out. -/
structure SlotEntry where
  first : ℕ
  last : ℕ
  ip : Bytes
  port : ℤ
  name : Option Bytes
  deriving DecidableEq

/-- A reply: a null pointer, an error, or what was asked for. -/
abbrev Reply (α : Type) := Option (Except Bytes α)

inductive Command
  | countKeysInSlot (slot : ℕ)
  | getKeysInSlot (slot : ℕ) (count : ℤ)
  | setSlot (slot : ℕ) (status : Status)
  | addSlots (slot : ℕ)
  | delSlots (slot : ℕ)
  | bumpEpoch
  | multi
  | exec
  | slots
  | migrate (target : ℕ) (replace : Bool) (keys : List Bytes)
  | digestValue (keys : List Bytes)
  deriving DecidableEq

/-- The replies of `EXEC` and `CLUSTER SLOTS` may be no arrays. -/
@[reducible]
def Command.Answer : Command → Type
  | .countKeysInSlot _ => Reply ℤ
  | .getKeysInSlot _ _ => Reply (List Bytes)
  | .setSlot _ _ => Reply Unit
  | .addSlots _ => Reply Unit
  | .delSlots _ => Reply Unit
  | .bumpEpoch => Reply Unit
  | .multi => Reply Unit
  | .exec => Reply (Option (List (Reply Unit)))
  | .slots => Reply (Option (List SlotEntry))
  | .migrate _ _ _ => Reply Unit
  | .digestValue _ => Reply (List Bytes)

inductive Request
  | command (node : ℕ) (c : Command)
  /-- `clusterManagerGetConfigSignature` -/
  | signature (node : ℕ)
  | confirmWithYes (msg : String)
  | rand
  /-- The bytes behind the end of a string. -/
  | memory (n : ℕ)
  /-- The order of a dictionary with `n` entries. -/
  | order (n : ℕ)

@[reducible]
def Request.Answer : Request → Type
  | .command _ c => c.Answer
  | .signature _ => Option Bytes
  | .confirmWithYes _ => Bool
  | .rand => ℕ
  | .memory n => Fin n → UInt8
  | .order n => Equiv.Perm (Fin n)

inductive Fault
  | assertion
  | divisionByZero
  | fuel
  deriving DecidableEq

abbrev Manager := Program Request.Answer Fault

def question (q : Request) : Manager q.Answer := request q

def command (n : ℕ) (c : Command) : Manager c.Answer := question (.command n c)

/-- The entries of a dictionary, in the order of its iterator. -/
def iterate {α : Type} (l : List α) : Manager (List α) := do
  let order ← question (.order l.length)
  pure (List.ofFn fun i => l.get (order i))

/-- `clusterManagerCheckRedisReply` -/
def checkRedisReply {α : Type} : Reply α → Bool
  | some (.ok _) => true
  | _ => false

/-! ### Single commands -/

variable (c : Cluster)

/-- `clusterManagerNodeByName` -/
def nodeByName (name : Bytes) : Option ℕ :=
  (List.range c.size).find? fun n => (c.node n).name = (cstring name).map tolower

/-- The node of an entry of `CLUSTER SLOTS`, by its name or its address. -/
def entryNode (e : SlotEntry) : Option ℕ :=
  match e.name with
  | some name => nodeByName c name
  | none => (List.range c.size).find? fun n => (c.node n).ip = e.ip ∧ (c.node n).port = e.port

def findSlotOwner (slot : ℕ) : List SlotEntry → Option ℕ
  | [] => none
  | e :: es =>
    if slot < e.first ∨ e.last < slot then findSlotOwner slot es
    else
      match entryNode c e with
      | some owner => some owner
      | none => findSlotOwner slot es

/-- `clusterManagerGetSlotOwner`, with whether there was an error to tell. -/
def getSlotOwner (n slot : ℕ) : Manager (Option ℕ × Bool) := do
  match ← command n .slots with
  | none => pure (none, false)
  | some (.error _) => pure (none, true)
  | some (.ok none) => .fail .assertion
  | some (.ok (some entries)) => pure (findSlotOwner c slot entries, false)

/-- The slot is not assigned to a node. -/
def notServed (n slot : ℕ) : Manager Bool := do
  let r ← getSlotOwner c n slot
  pure (r.1.isNone && !r.2)

/-- `clusterManagerSetSlot` -/
def setSlot (node1 slot : ℕ) (status : Status) : Manager Bool := do
  let reply ← command node1 (.setSlot slot status)
  pure (checkRedisReply reply)

/-- `clusterManagerClearSlotStatus` -/
def clearSlotStatus (n slot : ℕ) : Manager Bool := do
  let reply ← command n (.setSlot slot .stable)
  pure (checkRedisReply reply)

/-- `clusterManagerDelSlot` -/
def delSlot (n slot : ℕ) (ignoreUnassigned : Bool) : Manager Bool := do
  match ← command n (.delSlots slot) with
  | none => pure false
  | some (.ok _) => pure true
  | some (.error _) => if ignoreUnassigned then notServed c n slot else pure false

/-- `clusterManagerAddSlot` -/
def addSlot (n slot : ℕ) : Manager Bool := do
  let reply ← command n (.addSlots slot)
  pure (checkRedisReply reply)

/-- `clusterManagerCountKeysInSlot` -/
def countKeysInSlot (n slot : ℕ) : Manager ℤ := do
  match ← command n (.countKeysInSlot slot) with
  | some (.ok count) => pure count
  | _ => pure (-1)

/-- `clusterManagerBumpEpoch` -/
def bumpEpoch (n : ℕ) : Manager Bool := do
  let reply ← command n .bumpEpoch
  pure (checkRedisReply reply)

/-- `clusterManagerStartTransaction` -/
def startTransaction (n : ℕ) : Manager Bool := do
  let reply ← command n .multi
  pure (checkRedisReply reply)

/-- `clusterManagerOnSetOwnerErr`: only an error of `ADDSLOTS` counts. -/
def onSetOwnerErr (bulkIdx : ℕ) : Bool := bulkIdx ≠ 1

/-- The loop over the replies of a transaction. -/
def execLoop (onerror : ℕ → Bool) : ℕ → Bool → List (Reply Unit) → Bool
  | _, success, [] => success
  | i, _, r :: rs =>
    if checkRedisReply r || onerror i then execLoop onerror (i + 1) true rs else false

/-- `clusterManagerExecTransaction` -/
def execTransaction (n : ℕ) (onerror : ℕ → Bool) : Manager Bool := do
  match ← command n .exec with
  | some (.ok (some replies)) => pure (execLoop onerror 0 true replies)
  | _ => pure false

/-- `clusterManagerSetSlotOwner` -/
def setSlotOwner (owner slot : ℕ) (doClear : Bool) : Manager Bool := do
  let success ← startTransaction owner
  if !success then pure false
  else
    let _ ← delSlot c owner slot true
    let _ ← addSlot owner slot
    let _ ← (if doClear then clearSlotStatus owner slot else pure true)
    let _ ← bumpEpoch owner
    execTransaction owner onSetOwnerErr

/-! ### The migration of a slot -/

/-- The digest of a key that does not exist. -/
def hashZero : Bytes := List.replicate 40 48

/-- The keys whose digests differ on two nodes that both have them. -/
def differing : List Bytes → List Bytes → List Bytes → List Bytes
  | key :: keys, hash1 :: hashes1, hash2 :: hashes2 =>
    if hash1 = hashZero ∨ hash2 = hashZero then differing keys hashes1 hashes2
    else if hash1 ≠ hash2 then key :: differing keys hashes1 hashes2
    else differing keys hashes1 hashes2
  | _, _, _ => []

/-- `clusterManagerCompareKeysValues`: the list `diffs`, or nothing if it failed. -/
def compareKeysValues (n1 n2 : ℕ) (keys : List Bytes) : Manager (Option (List Bytes)) := do
  match ← command n1 (.digestValue keys) with
  | none => pure none
  | some reply1 =>
    match ← command n2 (.digestValue keys) with
    | none => pure none
    | some reply2 =>
      match reply1, reply2 with
      | .ok hashes1, .ok hashes2 =>
        if keys.length = hashes1.length ∧ keys.length = hashes2.length then
          pure (some (differing keys hashes1 hashes2))
        else .fail .assertion
      | _, _ => pure none

/-- A key as it is sent: copied up to its first null byte by `sdsnew`, but sent with its own
length. -/
def sentKey (key : Bytes) : Manager Bytes :=
  let copy := cstring key ++ [0]
  if key.length ≤ copy.length then pure (copy.take key.length)
  else do
    let behind ← question (.memory (key.length - copy.length))
    pure (copy ++ List.ofFn behind)

def sentKeys : List Bytes → Manager (List Bytes)
  | [] => pure []
  | key :: keys => do
    let name ← sentKey key
    let names ← sentKeys keys
    pure (name :: names)

/-- `clusterManagerMigrateKeysInReply` -/
def migrateKeysInReply (source target : ℕ) (keys : List Bytes) (replace : Bool) :
    Manager (Reply Unit) := do
  let names ← sentKeys keys
  command source (.migrate target replace names)

variable (cfg : Settings)

/-- The second attempt at a batch, after an error that the first one got. -/
def retryMigration (source target slot : ℕ) (keys : List Bytes) (err : Bytes) : Manager Bool := do
  let isBusy : Bool := text "BUSYKEY" <:+: err
  let unserved ← (if isBusy then pure false else notServed c source slot)
  if isBusy || unserved then do
    let _ ← (if cfg.fix && unserved then setSlot source slot (.node (c.node target).name)
        else pure true)
    let proceed ← (if isBusy && !cfg.replace then do
        let diffs ← compareKeysValues source target keys
        pure (decide (diffs = some []))
      else pure true)
    if proceed then do
      let reply ← migrateKeysInReply source target keys isBusy
      pure (checkRedisReply reply)
    else pure false
  else pure false

/-- `clusterManagerMigrateKeysInSlot` -/
def migrateKeysInSlot : (fuel : ℕ) → (source target slot : ℕ) → Manager Bool
  | 0, _, _, _ => .fail .fuel
  | fuel + 1, source, target, slot => do
    match ← command source (.getKeysInSlot slot cfg.pipeline) with
    | none => pure false
    | some (.error _) => pure false
    | some (.ok keys) =>
      if keys.length = 0 then pure true
      else do
        match ← migrateKeysInReply source target keys false with
        | some (.error err) =>
          let success ← retryMigration c cfg source target slot keys err
          if success then migrateKeysInSlot fuel source target slot else pure false
        -- with a null reply `success` is still set
        | _ => migrateKeysInSlot fuel source target slot

/-- The body of a loop over the masters that stops at the first command that fails. -/
def eachMaster (f : ℕ → Manager Bool) : Manager Bool := do
  let r ← each (fun (_ : Unit) n =>
    if (c.node n).slave then pure ((), true)
    else do
      let success ← f n
      pure ((), success)) () (List.range c.size)
  pure r.2

structure MoveOpts where
  cold : Bool
  update : Bool

variable (fuel : ℕ)

/-- `clusterManagerMoveSlot` -/
def moveSlot (source target slot : ℕ) (opts : MoveOpts)
    (slots : Slots) : Manager (Bool × Slots) := do
  let opened ← (if opts.cold then pure true else do
    let success ← setSlot target slot (.importing (c.node source).name)
    if success then setSlot source slot (.migrating (c.node target).name) else pure false)
  if !opened then pure (false, slots)
  else
    let success ← migrateKeysInSlot c cfg fuel source target slot
    if !success then pure (false, slots)
    else
      let success ← (if opts.cold then pure true else
        eachMaster c fun n => setSlot n slot (.node (c.node target).name))
      if !success then pure (false, slots)
      else pure (true, if opts.update then (slots.set source slot false).set target slot true
        else slots)

/-! ### Open slots -/

/-- `clusterManagerGetNodeWithMostKeysInSlot` -/
def getNodeWithMostKeysInSlot (nodes : List ℕ) (slot : ℕ) : Manager (Option ℕ) := do
  let r ← each (fun (best : Option (ℕ × ℤ)) n =>
    if (c.node n).slave || (c.node n).replicate.isSome then pure (best, true)
    else do
      match ← command n (.countKeysInSlot slot) with
      | some (.ok count) =>
        match best with
        | none => pure (some (n, count), true)
        | some (node, numkeys) =>
          pure (some (if numkeys < count then (n, count) else (node, numkeys)), true)
      | _ => pure (none, false)) none nodes
  pure (r.1.map Prod.fst)

/-- The masters that own a slot or have keys of it. -/
def findOwners (slot : ℕ) (slots : Slots) : Manager (List ℕ × Bool) :=
  each (fun owners n =>
    if (c.node n).slave then pure (owners, true)
    else if slots n slot then pure (owners ++ [n], true)
    else do
      match ← command n (.countKeysInSlot slot) with
      | some (.ok count) => pure (if 0 < count then owners ++ [n] else owners, true)
      | _ => pure (owners, false)) [] (List.range c.size)

structure Marks where
  migrating : List ℕ
  importing : List ℕ
  deriving DecidableEq

/-- The masters that have a slot marked, and those that have keys of it and are not the owner. -/
def findMarks (slot : ℕ) (owner : Option ℕ) : Manager (Marks × Bool) :=
  each (fun marks n =>
    if (c.node n).slave then pure (marks, true)
    else if (c.node n).migrating.any (·.1 = slot) then
      pure (⟨marks.migrating ++ [n], marks.importing⟩, true)
    else if (c.node n).importing.any (·.1 = slot) then
      pure (⟨marks.migrating, marks.importing ++ [n]⟩, true)
    else if owner = some n then pure (marks, true)
    else do
      match ← command n (.countKeysInSlot slot) with
      | some (.ok count) =>
        pure (if 0 < count then ⟨marks.migrating, marks.importing ++ [n]⟩ else marks, true)
      | _ => pure (marks, false)) ⟨[], []⟩ (List.range c.size)

/-- The owner that is selected if there is not exactly one. -/
def selectOwner (slot : ℕ) (marks : Marks)
    (slots : Slots) : Manager (Option (ℕ × Marks) × Slots) := do
  match ← getNodeWithMostKeysInSlot c (List.range c.size) slot with
  | none => pure (none, slots)
  | some owner =>
    let success ← clearSlotStatus owner slot
    if !success then pure (none, slots)
    else
      let success ← setSlotOwner c owner slot false
      if !success then pure (none, slots)
      else
        let slots := slots.set owner slot true
        let success ← bumpEpoch owner
        if !success then pure (none, slots)
        else pure (some (owner, ⟨marks.migrating.erase owner, marks.importing.erase owner⟩), slots)

/-- The other owners become importing nodes. -/
def demoteOwners (slot owner : ℕ) (owners : List ℕ) (marks : Marks) (slots : Slots) :
    Manager ((Marks × Slots) × Bool) :=
  each (fun (t : Marks × Slots) n =>
    if n = owner then pure (t, true)
    else do
      let success ← delSlot c n slot true
      if !success then pure (t, false)
      else
        let slots := t.2.set n slot false
        let success ← setSlot n slot (.node (c.node owner).name)
        if !success then pure ((t.1, slots), false)
        else
          let success ← setSlot n slot (.importing (c.node owner).name)
          if !success then pure ((t.1, slots), false)
          else pure ((⟨t.1.migrating.erase n, t.1.importing.erase n ++ [n]⟩, slots), true))
            (marks, slots) owners

/-- Case 2: all keys are moved to the owner. -/
def moveToOwner (slot owner : ℕ) (importing : List ℕ) (slots : Slots) : Manager (Bool × Slots) := do
  let r ← each (fun (slots : Slots) n =>
    if n = owner then pure (slots, true)
    else do
      let r ← moveSlot c cfg fuel n owner slot ⟨true, false⟩ slots
      if !r.1 then pure (r.2, false)
      else
        let success ← clearSlotStatus n slot
        pure (r.2, success)) slots importing
  if !r.2 then pure (false, r.1)
  else
    let success ← eachMaster c fun n => if n = owner then
        pure true else setSlot n slot (.node (c.node owner).name)
    pure (success, r.1)

/-- Case 3: whether no importing node has keys, with the one a slot is migrated to. -/
def findTarget (slot : ℕ) (targetId : Bytes) (importing : List ℕ) : Manager (Option ℕ × Bool) :=
  each (fun dst n => do
    let count ← countKeysInSlot n slot
    if 0 < count then pure (dst, false)
    else pure (if (c.node n).name = targetId then some n else dst, true)) none importing

/-- A slot is closed on some nodes. -/
def clearAll (slot : ℕ) (nodes : List ℕ) : Manager Bool := do
  let r ← each (fun (_ : Unit) n => do
    let success ← clearSlotStatus n slot
    pure ((), success)) () nodes
  pure r.2

/-- Case 3: one migrating node and several importing ones. -/
def closeOthers (slot src : ℕ) (importing : List ℕ) (slots : Slots) : Manager (Bool × Slots) := do
  match (c.node src).migrating.find? (·.1 = slot) with
  | none => .fail .assertion
  | some target =>
    let r ← findTarget c slot target.2 importing
    if !r.2 then pure (false, slots)
    else
      match r.1 with
      | some dst =>
        let m ← moveSlot c cfg fuel src dst slot ⟨false, false⟩ slots
        if !m.1 then pure (false, m.2)
        else
          let success ← clearAll slot (importing.filter (· ≠ dst))
          pure (success, m.2)
      | none =>
        let success ← clearSlotStatus src slot
        if !success then pure (false, slots)
        else
          let success ← clearAll slot importing
          pure (success, slots)

/-- Case 4: whether the only node with a mark is the owner or has no keys. -/
def tryToClose (slot owner n : ℕ) : Manager Bool := do
  let empty ← (if owner = n then pure true else do
    match ← command n (.getKeysInSlot slot 10) with
    | some (.ok keys) => pure (keys.length = 0)
    | _ => pure false)
  if empty then clearSlotStatus n slot else pure false

/-- The cases of a repair. -/
def repairSlot (slot owner : ℕ) (marks : Marks) (slots : Slots) : Manager (Bool × Slots) :=
  match marks.migrating, marks.importing with
  | [src], [dst] => moveSlot c cfg fuel src dst slot ⟨false, true⟩ slots
  | [], n :: importing => moveToOwner c cfg fuel slot owner (n :: importing) slots
  | [src], n :: n' :: importing => closeOthers c cfg fuel slot src (n :: n' :: importing) slots
  | [n], [] => do
    let success ← tryToClose slot owner n
    pure (success, slots)
  | _, _ => pure (false, slots)

/-- `clusterManagerFixOpenSlot` -/
def fixOpenSlot (slot : ℕ) (slots : Slots) : Manager (Bool × Slots) := do
  let owners ← findOwners c slot slots
  if !owners.2 then pure (false, slots)
  else
    let owner := if owners.1.length = 1 then owners.1.head? else none
    let marks ← findMarks c slot owner
    if !marks.2 then pure (false, slots)
    else
      let selected ← (match owner with
        | some owner => pure (some (owner, marks.1), slots)
        | none => selectOwner c slot marks.1 slots)
      match selected.1 with
      | none => pure (false, selected.2)
      | some (owner, marks) =>
        let demoted ← (if 1 < owners.1.length then
            demoteOwners c slot owner owners.1 marks selected.2
          else pure ((marks, selected.2), true))
        if !demoted.2 then pure (false, demoted.1.2)
        else repairSlot c cfg fuel slot owner demoted.1.1 demoted.1.2

/-! ### Slots without an owner, and with several -/

/-- `clusterManagerFixMultipleSlotOwners` -/
def fixMultipleSlotOwners (slot : ℕ) (owners : List ℕ) (slots : Slots) : Manager Bool := do
  let best ← getNodeWithMostKeysInSlot c owners slot
  match best.or owners.head? with
  | none => .fail .assertion
  | some owner =>
    let success ← setSlotOwner c owner slot false
    if !success then pure false
    else
      let r ← each (fun (success : Bool) n =>
        if n = owner then pure (success, true)
        else if (c.node n).slave then pure (success, true)
        else do
          let count ← countKeysInSlot n slot
          if count < 0 then pure (false, false)
          else
            let _ ← delSlot c n slot true
            let success ← setSlot n slot (.node (c.node owner).name)
            if !success then pure (false, false)
            else if 0 < count then
              let m ← moveSlot c cfg fuel n owner slot ⟨true, false⟩ slots
              pure (m.1, m.1)
            else pure (true, true)) false (List.range c.size)
      pure r.1

/-- One node of the loop over the slots of a node in `clusterManagerGetCoveredSlots`. -/
def coverNode (slots : ℕ → Bool) (all : (ℕ → Bool) × ℕ) : (ℕ → Bool) × ℕ :=
  (List.range managerSlots).foldl
    (fun all i => if slots i && !all.1 i then (update all.1 i true, all.2 + 1) else all) all

/-- `clusterManagerGetCoveredSlots`: the array `all_slots` and the number of slots. -/
def getCoveredSlots (slots : Slots) : (ℕ → Bool) × ℕ :=
  (List.range c.size).foldl (fun all n => coverNode (slots n) all) (fun _ => false, 0)

def masters : List ℕ := (List.range c.size).filter fun n => !(c.node n).slave

/-- `clusterManagerNodeMasterRandom` -/
def nodeMasterRandom : Manager ℕ := do
  let idx ← question .rand
  match (masters c)[idx % (masters c).length]? with
  | none => .fail .divisionByZero
  | some n => pure n

/-- The masters that have keys of a slot. -/
def slotNodes (slot : ℕ) : Manager (List ℕ × Bool) :=
  each (fun nodes n =>
    if (c.node n).slave || (c.node n).replicate.isSome then pure (nodes, true)
    else do
      match ← command n (.getKeysInSlot slot 1) with
      | some (.ok keys) => pure (if 0 < keys.length then nodes ++ [n] else nodes, true)
      | _ => pure (nodes, false)) [] (List.range c.size)

/-- `clusterManagerUncoveredSlots`, with the nodes that have keys of each slot. -/
def uncoveredSlots (allSlots : ℕ → Bool) : Manager (List (ℕ × List ℕ) × Bool) :=
  each (fun uncovered i =>
    if allSlots i then pure (uncovered, true)
    else do
      let nodes ← slotNodes c i
      if nodes.2 then pure (uncovered ++ [(i, nodes.1)], true) else pure (uncovered, false))
    [] (List.range managerSlots)

/-- The repair of the coverage so far: the counter `fixed`, the slots of the nodes, and what
became of the slots that no node had. -/
structure Coverage where
  fixed : ℤ
  slots : Slots
  /-- The slots that were given to a node. -/
  assigned : List ℕ
  /-- The slots of the cases that the user refused. -/
  refused : List ℕ

/-- `n->slots[slot] = 1` -/
def Coverage.assign (t : Coverage) (n slot : ℕ) : Coverage :=
  { t with slots := t.slots.set n slot true, assigned := t.assigned ++ [slot] }

/-- A slot is covered with a node. -/
def coverSlot (t : Coverage) (n slot : ℕ) (doClear : Bool) : Manager (Coverage × Bool) := do
  let success ← setSlotOwner c n slot doClear
  if !success then pure ({ t with fixed := -1 }, false)
  else pure ({ t.assign n slot with fixed := t.fixed + 1 }, true)

/-- Case 1: slots without keys. -/
def coverEmpty (t : Coverage) (slots : List (ℕ × List ℕ)) : Manager (Coverage × Bool) :=
  each (fun t s => do
    let n ← nodeMasterRandom c
    coverSlot c t n s.1 false) t slots

/-- Case 2: slots with keys on one node. -/
def coverSingle (t : Coverage) (slots : List (ℕ × List ℕ)) : Manager (Coverage × Bool) :=
  each (fun t s =>
    match s.2.head? with
    | none => .fail .assertion
    | some n => coverSlot c t n s.1 false) t slots

/-- The keys of a slot are moved from a node to the one that covers it. -/
def moveKeys (src target slot : ℕ) (slots : Slots) : Manager Bool := do
  let success ← setSlot src slot (.node (c.node target).name)
  if !success then pure false
  else
    let success ← setSlot src slot (.importing (c.node target).name)
    if !success then pure false
    else
      let m ← moveSlot c cfg fuel src target slot ⟨true, false⟩ slots
      if !m.1 then pure false else clearSlotStatus src slot

/-- Case 3: slots with keys on several nodes. -/
def coverMultiple (t : Coverage) (slots : List (ℕ × List ℕ)) : Manager (Coverage × Bool) :=
  each (fun t s => do
    match ← getNodeWithMostKeysInSlot c s.2 s.1 with
    | none => pure ({ t with fixed := -1 }, false)
    | some target =>
      let success ← setSlotOwner c target s.1 true
      if !success then pure ({ t with fixed := -1 }, false)
      else
        let t' := t.assign target s.1
        let r ← each (fun (_ : Unit) src =>
          if src = target then pure ((), true)
          else do
            let success ← moveKeys c cfg fuel src target s.1 t'.slots
            pure ((), success)) () s.2
        if r.2 then pure ({ t' with fixed := t.fixed + 1 }, true)
        else pure ({ t' with fixed := -1 }, false)) t slots

/-- A case is handled if it has slots and the user says yes. -/
def confirmCase (msg : String) (t : Coverage) (slots : List (ℕ × List ℕ))
    (f : Coverage → List (ℕ × List ℕ) → Manager (Coverage × Bool)) : Manager (Coverage × Bool) :=
  if 0 < slots.length then do
    let yes ← question (.confirmWithYes msg)
    if yes then f t slots
    else pure ({ t with refused := t.refused ++ slots.map Prod.fst }, true)
  else pure (t, true)

/-- `clusterManagerFixSlotsCoverage` -/
def fixSlotsCoverage (allSlots : ℕ → Bool) (slots : Slots) : Manager Coverage := do
  let uncovered ← uncoveredSlots c allSlots
  if !uncovered.2 then pure ⟨-1, slots, [], []⟩
  else
    let entries ← iterate uncovered.1
    let none := entries.filter fun s => s.2.length = 0
    let single := entries.filter fun s => s.2.length = 1
    let multi := entries.filter fun s => 1 < s.2.length
    let r ← confirmCase "Fix these slots by covering with a random node?" ⟨0, slots, [], []⟩ none
      (coverEmpty c)
    if !r.2 then pure r.1
    else
      let r ← confirmCase "Fix these slots by covering with those nodes?" r.1 single (coverSingle c)
      if !r.2 then pure r.1
      else
        let r ← confirmCase "Fix these slots by moving keys into a single node?" r.1 multi
          (coverMultiple c cfg fuel)
        pure r.1

/-! ### The check -/

/-- `clusterManagerIsConfigConsistent`, with the signatures it got. -/
def isConfigConsistent : Manager (Bool × List (Option Bytes)) :=
  if c.size ≤ 1 then pure (true, [])
  else do
    let r ← each (fun (t : (Option Bytes × Bool) × List (Option Bytes)) n => do
      let cfg ← question (.signature n)
      match cfg, t.1.1 with
      | none, first => pure (((first, false), t.2 ++ [cfg]), false)
      | some s, none => pure (((some s, t.1.2), t.2 ++ [cfg]), true)
      | some s, some first =>
        pure (((some first, decide (first = s)), t.2 ++ [cfg]), decide (first = s)))
          ((none, false), []) (List.range c.size)
    pure (r.1.1.2, r.1.2)

/-- What a check returns, and what happened in it. -/
structure Report where
  result : Bool
  consistent : Bool
  signatures : List (Option Bytes)
  /-- The slots that were found open. -/
  openSlots : List ℕ
  /-- The open slots that were repaired, with what `fixOpenSlot` returned. -/
  repairs : List (ℕ × Bool)
  /-- The slots that no node had when the coverage was checked. -/
  uncovered : List ℕ
  /-- The repair of the coverage, with the slots of the nodes at the end of the check. -/
  coverage : Coverage
  /-- The slots that were found with several owners, and whether they were repaired. -/
  multiple : List (ℕ × Bool)

/-- The slots that some node has marked. -/
def openSlots : List ℕ :=
  ((List.range c.size).flatMap fun n => ((c.node n).migrating ++
    (c.node n).importing).map Prod.fst).dedup

/-- The open slots are repaired, up to the first that is not. -/
def fixOpenSlots (entries : List ℕ) (slots : Slots) : Manager ((List (ℕ × Bool) × Slots) × Bool) :=
  each (fun (t : List (ℕ × Bool) × Slots) slot => do
    let r ← fixOpenSlot c cfg fuel slot t.2
    pure ((t.1 ++ [(slot, r.1)], r.2), r.1)) ([], slots) entries

/-- The masters that own a slot or have keys of it, for the search for several owners. -/
def slotOwners (slot : ℕ) (slots : Slots) : Manager (List ℕ) := do
  let r ← each (fun owners n =>
    if (c.node n).slave then pure (owners, true)
    else if slots n slot then pure (owners ++ [n], true)
    else do
      let count ← countKeysInSlot n slot
      pure (if 0 < count then owners ++ [n] else owners, true)) [] (List.range c.size)
  pure r.1

/-- The search for slots with several owners. -/
def searchMultipleOwners (result : Bool) (slots : Slots) : Manager (Bool × List (ℕ × Bool)) := do
  let r ← each (fun (t : Bool × List (ℕ × Bool)) slot => do
    let owners ← slotOwners c slot slots
    if 1 < owners.length then
      if cfg.fix then do
        let success ← fixMultipleSlotOwners c cfg fuel slot owners slots
        pure ((success, t.2 ++ [(slot, success)]), success)
      else pure ((false, t.2 ++ [(slot, false)]), true)
    else pure (t, true)) (result, []) (List.range managerSlots)
  pure r.1

/-- The slots of the nodes as they were loaded. -/
def Cluster.slots : Slots := fun n => (c.node n).slots

/-- The part of the check that is about the open slots. -/
def checkOpened (consistent : Bool) : Manager ((Bool × List (ℕ × Bool)) × Slots) :=
  if (openSlots c).length = 0 then pure ((consistent, []), c.slots)
  else if cfg.fix then do
    let entries ← iterate (openSlots c)
    let r ← fixOpenSlots c cfg fuel entries c.slots
    pure ((r.2, r.1.1), r.1.2)
  else pure ((false, []), c.slots)

/-- The part of the check that is about the coverage. -/
def checkCoverage (result : Bool) (slots : Slots) : Manager (Bool × Coverage) :=
  if (getCoveredSlots c slots).2 = managerSlots then pure (result, ⟨0, slots, [], []⟩)
  else if cfg.fix then do
    let t ← fixSlotsCoverage c cfg fuel (getCoveredSlots c slots).1 slots
    pure (decide (0 < t.fixed), t)
  else pure (false, ⟨0, slots, [], []⟩)

/-- The part of the check that is about several owners. -/
def checkOwners (result : Bool) (slots : Slots) : Manager (Bool × List (ℕ × Bool)) :=
  if cfg.checkOwners then searchMultipleOwners c cfg fuel result slots else pure (result, [])

/-- The slots that no node has. -/
def uncovered (slots : Slots) : List ℕ :=
  (List.range managerSlots).filter fun s => !(getCoveredSlots c slots).1 s

/-- `clusterManagerCheckCluster` -/
def checkCluster : Manager Report :=
  if c.size = 0 then pure ⟨false, true, [], [], [], [], ⟨0, c.slots, [], []⟩, []⟩
  else do
    let consistent ← isConfigConsistent c
    let opened ← checkOpened c cfg fuel consistent.1
    let covered ← checkCoverage c cfg fuel opened.1.1 opened.2
    let owners ← checkOwners c cfg fuel covered.1 covered.2.slots
    pure ⟨owners.1, consistent.1, consistent.2, openSlots c, opened.1.2,
      uncovered c opened.2, covered.2, owners.2⟩

end ClusterManager
