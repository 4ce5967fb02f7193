/-
`redis-cli --cluster del-node` (redis-cli.c).

The commands that are sent are recorded with their replies (`Log`); a reply may depend on
all that was sent before.  The loading of the cluster and messages are left out.

To remove a node is to send the commands of `removal`, which gives each of its replicas a
new master, up to the first that fails.  The source does this with one master for all of
them (`commandDeleteNode_eq`), and this may be the node itself (`rehomes_iff`).
-/
import DecomposeRedis.ClusterCheckSpec
import Mathlib.Data.List.MinMax

namespace ClusterManager

open ClusterCreate (managerSlots)
open Networking (cstring tolower)

inductive Order
  | replicate (n : ℕ) (master : Bytes)
  | forget (n : ℕ) (id : Bytes)
  | reset (n : ℕ)
  deriving DecidableEq

abbrev Log := List (Order × Reply Unit)

variable (c : Cluster) (reply : Log → Order → Reply Unit) (id : Bytes) (x : ℕ)

/-- `replicas_count`, as `clusterManagerLoadInfoFromNode` leaves it. -/
def replicasCount (m : ℕ) : ℕ :=
  (List.range c.size).countP fun n => (c.node n).replicate.bind (nodeByName c) = some m

/-- `clusterManagerNodeWithLeastReplicas`: the first of them -/
def nodeWithLeastReplicas : Option ℕ := (masters c).argmin (replicasCount c)

/-- `n->replicate && !strcasecmp(n->replicate, node_id)` -/
def Cluster.replicates (n : ℕ) : Bool :=
  (c.node n).replicate.any fun r => (cstring r).map tolower = (cstring id).map tolower

/-- A command that fails ends the function, and so does an assertion. -/
def sendTo (log : Log) (q : Order) : Except (Option Log) Log :=
  if checkRedisReply (reply log q) then .ok (log ++ [(q, reply log q)])
  else .error (some (log ++ [(q, reply log q)]))

/-- The body of the loop. -/
def forgetNode (log : Log) (n : ℕ) : Except (Option Log) Log :=
  if n = x then .ok log
  else do
    let log ← if c.replicates id n then
        match nodeWithLeastReplicas c with
        | none => .error none
        | some master => sendTo reply log (.replicate n (c.node master).name)
      else pure log
    sendTo reply log (.forget n id)

/-- `clusterManagerCommandDeleteNode` -/
def commandDeleteNode : Except (Option Log) Log :=
  match nodeByName c id with
  | none => .error (some [])
  | some node =>
    if (List.range managerSlots).any (c.node node).slots then .error (some [])
    else do
      let log ← (List.range c.size).foldlM (forgetNode c reply id node) []
      sendTo reply log (.reset node)

/-- What a node is told: a replica gets a new home before it forgets the removed node. -/
def farewell (home : ℕ → ℕ) (n : ℕ) : List Order :=
  if n = x then []
  else (if c.replicates id n then [.replicate n (c.node (home n)).name] else []) ++ [.forget n id]

/-- The commands that remove a node. -/
def removal (home : ℕ → ℕ) : List Order :=
  (List.range c.size).flatMap (farewell c id x home) ++ [.reset x]

/-- Commands are sent one after the other, up to the first that fails. -/
def SentInOrder (qs : List Order) : Except (Option Log) Log → Prop
  | .ok log => log.map Prod.fst = qs ∧ ∀ e ∈ log, checkRedisReply e.2 = true
  | .error (some log) => log.map Prod.fst <+: qs ∧
      ∃ front e, log = front ++ [e] ∧ (∀ e ∈ front, checkRedisReply e.2 = true) ∧
        checkRedisReply e.2 = false
  | .error none => False

variable {c reply id x} {m : ℕ} {log : Log} {done qs : List Order}

theorem sentInOrder_foldlM (hlog : log.map Prod.fst = done)
    (hok : ∀ e ∈ log, checkRedisReply e.2 = true) :
    SentInOrder (done ++ qs) (qs.foldlM (sendTo reply) log) := by
  induction qs generalizing done log with
  | nil => exact ⟨by rw [hlog, List.append_nil], hok⟩
  | cons q qs ih =>
    rw [List.foldlM_cons, sendTo]
    have hnext : (log ++ [(q, reply log q)]).map Prod.fst = done ++ [q] := by
      rw [List.map_append, hlog]; rfl
    cases hq : checkRedisReply (reply log q) with
    | true =>
      have hrest := ih hnext (by simpa [or_imp, forall_and, hq] using hok)
      rwa [List.append_assoc] at hrest
    | false => exact ⟨⟨qs, by rw [hnext, List.append_assoc]; rfl⟩, log, _, rfl, hok, hq⟩

/-- Without an error all is sent. -/
theorem foldlM_sendTo_ok :
    qs.foldlM (sendTo fun _ _ => some (.ok ())) log = .ok (log ++ qs.map (·, some (.ok ()))) := by
  induction qs generalizing log with
  | nil => rw [List.map_nil, List.append_nil]; rfl
  | cons q qs ih =>
    rw [List.foldlM_cons]
    exact ih.trans (by simp)

theorem forgetNode_eq (hm : nodeWithLeastReplicas c = some m) (n : ℕ) :
    forgetNode c reply id x log n = (farewell c id x (fun _ => m) n).foldlM (sendTo reply) log := by
  rw [forgetNode, farewell, hm]
  by_cases hn : n = x
  · rw [if_pos hn, if_pos hn]
    rfl
  rw [if_neg hn, if_neg hn, List.foldlM_append]
  split_ifs <;> simp only [List.foldlM_cons, List.foldlM_nil, bind_pure]

/-- **The commands of the source.** -/
theorem commandDeleteNode_eq (hx : nodeByName c id = some x)
    (hempty : (List.range managerSlots).any (c.node x).slots = false)
    (hm : nodeWithLeastReplicas c = some m) :
    commandDeleteNode c reply id = (removal c id x fun _ => m).foldlM (sendTo reply) [] := by
  have hloop : ∀ (ns : List ℕ) (log : Log), ns.foldlM (forgetNode c reply id x) log =
      (ns.flatMap (farewell c id x fun _ => m)).foldlM (sendTo reply) log := by
    intro ns
    induction ns with
    | nil => exact fun _ => rfl
    | cons n ns ih =>
      intro log
      rw [List.foldlM_cons, List.flatMap_cons, List.foldlM_append, forgetNode_eq hm, funext ih]
  rw [commandDeleteNode, hx]
  dsimp only
  rw [hempty, if_neg Bool.false_ne_true, hloop, removal, List.foldlM_append]
  simp only [List.foldlM_cons, List.foldlM_nil, bind_pure]

/-- **Every replica of a removed node gets another master** if and only if there is none, or
the node does not come first among the masters with the least replicas. -/
theorem rehomes_iff (c : Cluster) (id : Bytes) (x : ℕ) (hx : nodeByName c id = some x)
    (hempty : (List.range managerSlots).any (c.node x).slots = false)
    (hother : ∃ m ∈ masters c, m ≠ x)
    (hnames : ∀ a < c.size, ∀ b < c.size, (c.node a).name = (c.node b).name → a = b) :
    (∀ reply, ∃ home : ℕ → ℕ, (∀ n, home n ∈ masters c ∧ home n ≠ x) ∧
        SentInOrder (removal c id x home) (commandDeleteNode c reply id)) ↔
      (∀ n < c.size, n ≠ x → c.replicates id n = false) ∨ (x ∈ masters c → ∃ m ∈ masters c,
        replicasCount c m < replicasCount c x ∨
          replicasCount c m ≤ replicasCount c x ∧ (masters c).idxOf m < (masters c).idxOf x) := by
  obtain ⟨m', hm', hne⟩ := hother
  obtain ⟨m, hm⟩ : ∃ m, nodeWithLeastReplicas c = some m :=
    Option.ne_none_iff_exists'.mp fun h => List.ne_nil_of_mem hm' (List.argmin_eq_none.mp h)
  obtain ⟨hmem, hleast, hfirst⟩ := List.mem_argmin_iff.mp (Option.mem_def.mpr hm)
  constructor
  · intro h
    by_contra! hbad
    obtain ⟨⟨n, hn, hnx, hr⟩, hxm, hall⟩ := hbad
    -- the node is its own first choice
    obtain rfl : m = x := by
      obtain ⟨hle, hidx⟩ := hall m hmem
      have hge := hleast x hxm
      exact (List.idxOf_inj hmem).mp (Nat.le_antisymm (hfirst x hxm hle) (hidx hge))
    obtain ⟨home, hhome, hsent⟩ := h fun _ _ => some (.ok ())
    rw [commandDeleteNode_eq hx hempty hm, foldlM_sendTo_ok] at hsent
    obtain ⟨hsent, -⟩ := hsent
    have hmoved : Order.replicate n (c.node m).name ∈ removal c id m home := by
      rw [← hsent]
      simp [removal, farewell, hn, hnx, hr]
    have hname : (c.node m).name = (c.node (home n)).name := by
      simpa [removal, farewell, hn, hnx, hr] using hmoved
    exact (hhome n).2 (hnames m (mem_masters.mp hmem).1 _ (mem_masters.mp (hhome n).1).1 hname).symm
  · intro h reply
    have hsent := @sentInOrder_foldlM reply [] [] (removal c id x fun _ => m) rfl (by simp)
    rw [← commandDeleteNode_eq hx hempty hm] at hsent
    rcases h with hnone | hleft
    · refine ⟨fun _ => m', fun _ => ⟨hm', hne⟩, ?_⟩
      have heq : removal c id x (fun _ => m) = removal c id x fun _ => m' := by
        refine congrArg (· ++ [Order.reset x]) (List.flatMap_congr fun n hn => ?_)
        rw [farewell, farewell]
        split_ifs with hnx hr
        · rfl
        · exact absurd (hnone n (List.mem_range.mp hn) hnx) (by simp [hr])
        · rfl
      rwa [heq] at hsent
    · refine ⟨fun _ => m, fun _ => ⟨hmem, ?_⟩, hsent⟩
      rintro rfl
      obtain ⟨a, ha, hlt | ⟨hle, hidx⟩⟩ := hleft hmem
      · exact absurd (hleast a ha) (Nat.not_le.mpr hlt)
      · exact absurd (hfirst a ha hle) (Nat.not_le.mpr hidx)

/-- Two masters, "a" and "c", with a replica each. -/
def fourNodes : Cluster where
  size := 4
  node := fun n => ⟨[97 + n.toUInt8], [], 7000, n % 2 = 1, if n % 2 = 1 then
    some [96 + n.toUInt8] else none,
    fun _ => false, [], []⟩

theorem rehomes_iff_fourNodes : 2 ∈ masters fourNodes ∧
    ∀ reply, ∃ home : ℕ → ℕ, (∀ n, home n ∈ masters fourNodes ∧ home n ≠ 2) ∧
      SentInOrder (removal fourNodes [99] 2 home) (commandDeleteNode fourNodes reply [99]) :=
  ⟨by decide, (rehomes_iff fourNodes [99] 2 (by decide) (by simp [fourNodes]) (by decide)
    (by decide)).mpr
    (.inr fun _ => ⟨0, by decide, .inr (by decide)⟩)⟩

/-- The replica of "a" is told to replicate "a". -/
theorem replica_keeps_master : commandDeleteNode fourNodes (fun _ _ => some (.ok ())) [97] =
    .ok ([.replicate 1 [97], .forget 1 [97], .forget 2 [97], .forget 3 [97], .reset 0].map
      (·, some (.ok ()))) := by
  rw [commandDeleteNode_eq (x := 0) (m := 0) (by decide) (by simp [fourNodes]) (by decide),
    foldlM_sendTo_ok]
  rfl

end ClusterManager
