/-
The counter `reply_bytes` is exact.

`reply_bytes` is to be the sum of the sizes of the blocks of the reply list
(`Output.Accounted`).  Each function of the output keeps that, whatever the
allocator gives and whatever `write(2)` accepts, and is never stopped by the counter
(`Counted`): it does not wrap, and it is zero when the list gets empty.  Clients that
hand their output to each other are a pool (`poolStep`), and `replyBytes_exact` is the
result for every run of the pool.
-/
import DecomposeRedis.ReplyBuffer
import Mathlib.Algebra.BigOperators.Group.List.Basic
import Mathlib.Logic.Function.Basic

namespace Networking

open Sds

/-- The `size` of a block; a placeholder has none. -/
def ReplyNode.size : ReplyNode → ℕ
  | .placeholder _ => 0
  | .block b => b.size

/-- The sum of the sizes of the blocks. -/
def blockSizes (reply : List ReplyNode) : ℕ := (reply.map ReplyNode.size).sum

@[simp] theorem blockSizes_nil : blockSizes [] = 0 := rfl

@[simp] theorem blockSizes_placeholder (n : ℕ) (reply : List ReplyNode) :
    blockSizes (.placeholder n :: reply) = blockSizes reply := by
  simp [blockSizes, ReplyNode.size]

@[simp] theorem blockSizes_block (b : ReplyBlock) (reply : List ReplyNode) :
    blockSizes (.block b :: reply) = b.size + blockSizes reply := by
  simp [blockSizes, ReplyNode.size]

@[simp] theorem blockSizes_append (reply reply' : List ReplyNode) :
    blockSizes (reply ++ reply') = blockSizes reply + blockSizes reply' := by
  simp [blockSizes]

/-- `reply_bytes` is exact. -/
def Output.Accounted (out : Output) : Prop := out.replyBytes = blockSizes out.reply

instance (out : Output) : Decidable out.Accounted := inferInstanceAs (Decidable (_ = _))

/-- The call is not stopped by the counter, and what it returns has the property. -/
def Counted {α : Type} (P : α → Prop) : Except Fault α → Prop
  | .ok a => P a
  | .error e => e ≠ .underflow ∧ e ≠ .replyBytesLeft

theorem Counted.map {α β : Type} {P : α → Prop} {Q : β → Prop} {x : Except Fault α} {g : α → β}
    (h : Counted P x) (hg : ∀ a, P a → Q (g a)) : Counted Q (x.map g) := by
  cases x with
  | ok a => exact hg a h
  | error e => exact h

theorem Counted.bind {α β : Type} {P : α → Prop} {Q : β → Prop} {x : Except Fault α}
    {g : α → Except Fault β} (h : Counted P x) (hg : ∀ a, P a → Counted Q (g a)) :
    Counted Q (x.bind g) := by
  cases x with
  | ok a => exact hg a h
  | error e => exact h

/-! ### Adding replies -/

theorem addBlock_sizes (reply : List ReplyNode) (s : Bytes) (slack : ℕ) :
    blockSizes (addBlock reply s slack).1 = blockSizes reply + (addBlock reply s slack).2 := by
  rw [addBlock]
  split <;> simp

/-- The last block keeps its size, and a new one is counted. -/
theorem appendToList_sizes (reply : List ReplyNode) (s : Bytes) (slack : ℕ) :
    blockSizes (appendToList reply s slack).1
      = blockSizes reply + (appendToList reply s slack).2 := by
  fun_induction appendToList reply s slack with
  | case1 tail s slack =>
    rw [addBlock_sizes]
    simp [ReplyBlock.append]
  | case2 n n' reply s slack x ih =>
    have hcons : ∀ l, blockSizes (n :: l) = n.size + blockSizes l := by
      intro l
      simp [blockSizes]
    show blockSizes (n :: x.1) = blockSizes (n :: n' :: reply) + x.2
    rw [hcons, hcons, ih, Nat.add_assoc]
  | case3 reply s slack => exact addBlock_sizes reply s slack

variable {out : Output}

theorem addReplyProto_accounted (f : ReplyFlags) (s : Bytes) (slack : ℕ)
    (h : out.Accounted) : (addReplyProto f out s slack).Accounted := by
  have hlist : (addReplyProtoToList f out s slack).Accounted := by
    rw [addReplyProtoToList]
    split
    · exact h
    · show out.replyBytes + _ = blockSizes (appendToList out.reply s slack).1
      rw [appendToList_sizes, h]
  rw [addReplyProto, addReplyToBuffer]
  split_ifs
  · exact h
  · exact h
  · exact hlist
  · exact h
  · exact hlist

theorem addReply_counted (f : ReplyFlags) (obj : StringObject) (slack : ℕ)
    (h : out.Accounted) : Counted Output.Accounted (addReply f out obj slack) := by
  cases obj with
  | sdsEncoded s => exact addReplyProto_accounted f s slack h
  | int value => exact addReplyProto_accounted f _ slack h
  | other =>
    rw [addReply]
    split
    · exact h
    · exact ⟨nofun, nofun⟩

theorem addReplyDeferredLen_accounted (f : ReplyFlags) (node : ℕ)
    (h : out.Accounted) : (addReplyDeferredLen f out node).1.Accounted := by
  rw [addReplyDeferredLen]
  split
  · exact h
  · show out.replyBytes = blockSizes (out.reply ++ [.placeholder node])
    rw [blockSizes_append]
    exact h

/-- Gluing keeps the size of the next block, and a new block is counted. -/
theorem fillHead_sizes (s : Bytes) (slack : ℕ) (rest : List ReplyNode) :
    blockSizes (fillHead s slack rest).1 = blockSizes rest + (fillHead s slack rest).2 := by
  have hnew : blockSizes (.block (.alloc s 0 slack) :: rest)
      = blockSizes rest + (ReplyBlock.alloc s 0 slack).size := by
    rw [blockSizes_block, Nat.add_comm]
  match rest with
  | [] => exact hnew
  | .placeholder n :: rest => exact hnew
  | .block next :: rest =>
    rw [fillHead]
    split
    · simp [ReplyBlock.glue]
    · exact hnew

theorem fillNode_counted (node : ℕ) (s : Bytes) (slack : ℕ) (reply : List ReplyNode) :
    Counted (fun x => blockSizes x.1 = blockSizes reply + x.2) (fillNode node s slack reply) := by
  induction reply with
  | nil => exact ⟨nofun, nofun⟩
  | cons n rest ih =>
    cases n with
    | placeholder n =>
      rw [fillNode]
      split
      · show blockSizes (fillHead s slack rest).1 = _
        rw [fillHead_sizes, blockSizes_placeholder]
      · refine ih.map fun x hx => ?_
        simpa using hx
    | block b =>
      refine ih.map fun x hx => ?_
      rw [blockSizes_block, blockSizes_block, hx, Nat.add_assoc]

theorem setDeferredAggregateLen_counted (node : Option ℕ) (length : ℤ) (tag : UInt8)
    (slack : ℕ) (h : out.Accounted) :
    Counted Output.Accounted (setDeferredAggregateLen out node length tag slack) := by
  cases node with
  | none => exact h
  | some node =>
    refine (fillNode_counted node _ slack out.reply).map fun x hx => ?_
    show out.replyBytes + x.2 = blockSizes x.1
    rw [hx, h]

/-- The blocks of `src` move with their count. -/
theorem addReplyFromClient_accounted (f : ReplyFlags) {dst src : Output} (slack : ℕ)
    (hd : dst.Accounted) (hs : src.Accounted) :
    (addReplyFromClient f dst src slack).1.Accounted
      ∧ (addReplyFromClient f dst src slack).2.Accounted := by
  rw [addReplyFromClient]
  split
  · exact ⟨hd, hs⟩
  · have hadd := addReplyProto_accounted f src.buf slack hd
    refine ⟨?_, rfl⟩
    show _ + src.replyBytes = blockSizes (_ ++ src.reply)
    rw [blockSizes_append, ← hs, ← hadd]

/-- `listDup` copies a list without placeholders as it is. -/
theorem dupReply_counted (reply : List ReplyNode) :
    Counted (fun copy => copy = reply) (dupReply reply) := by
  induction reply with
  | nil => rfl
  | cons n rest ih =>
    cases n with
    | placeholder n => exact ⟨nofun, nofun⟩
    | block b => exact ih.map fun copy hcopy => congrArg _ hcopy

theorem copyClientOutputBuffer_counted {src : Output} (h : src.Accounted) :
    Counted Output.Accounted (copyClientOutputBuffer src) := by
  refine (dupReply_counted src.reply).map fun copy hcopy => ?_
  subst hcopy
  exact h

/-! ### Writing to the socket -/

theorem skipEmpty_counted (reply : List ReplyNode) (replyBytes : ℕ)
    (h : replyBytes = blockSizes reply) :
    Counted (fun x => x.2 = blockSizes x.1) (skipEmpty reply replyBytes) := by
  fun_induction skipEmpty reply replyBytes with
  | case1 => exact h
  | case2 => exact ⟨nofun, nofun⟩
  | case3 => exact h
  | case4 b rest replyBytes _ hlt =>
    rw [blockSizes_block] at h
    omega
  | case5 b rest replyBytes _ _ ih =>
    refine ih ?_
    rw [h, blockSizes_block, Nat.add_sub_cancel_left]

theorem nextChunk_counted (h : out.Accounted) :
    Counted Output.Accounted (nextChunk out) := by
  rw [nextChunk]
  split
  · exact h
  · exact (skipEmpty_counted out.reply out.replyBytes h).map fun _ hx => hx

theorem writeBuf_counted (n : ℕ) (h : out.Accounted) :
    Counted (fun y => y.1.Accounted) (writeBuf out n) := by
  rw [writeBuf]
  split
  · exact ⟨nofun, nofun⟩
  · dsimp only
    split <;> exact h

theorem writeBlock_counted {b : ReplyBlock} {rest : List ReplyNode} (n : ℕ)
    (hreply : out.reply = .block b :: rest) (h : out.Accounted) :
    Counted (fun y => y.1.Accounted) (writeBlock out b rest n) := by
  have hsum : out.replyBytes = b.size + blockSizes rest := by
    rw [← blockSizes_block, ← hreply]
    exact h
  rw [writeBlock]
  split
  · exact ⟨nofun, nofun⟩
  · dsimp only
    split
    · -- the block is sent: its size leaves the counter, which is then that of the rest
      rw [if_neg (by omega), if_neg]
      · show out.replyBytes - b.size = blockSizes rest
        omega
      · rintro ⟨rfl, hne⟩
        rw [blockSizes_nil] at hsum
        omega
    · exact h

theorem writeOnce_counted (n : ℕ) (h : out.Accounted) :
    Counted (fun y => y.1.Accounted) (writeOnce out n) := by
  rw [writeOnce]
  split
  · exact writeBuf_counted n h
  · split
    · rename_i b rest hreply
      exact writeBlock_counted n hreply h
    · exact ⟨nofun, nofun⟩

section

variable (netMaxWritesPerEvent : ℕ) {p : ℕ → Output}

theorem writeLoop_counted (f : ReplyFlags) (ws : List WriteResult) (totwritten : ℕ)
    (h : out.Accounted) :
    Counted (fun x => x.1.Accounted) (writeLoop netMaxWritesPerEvent f ws totwritten out) := by
  induction ws generalizing totwritten out with
  | nil =>
    rw [writeLoop]
    refine (nextChunk_counted h).bind fun out h => ?_
    split <;> exact h
  | cons w ws ih =>
    rw [writeLoop]
    refine (nextChunk_counted h).bind fun out h => ?_
    split
    · exact h
    · cases w with
      | eagain => exact h
      | error => exact h
      | accepts n overMemory =>
        refine (writeOnce_counted n h).bind fun y hy => ?_
        dsimp only
        split_ifs
        · exact hy
        · exact hy
        · exact (ih _ hy).map fun _ hz => hz

theorem writeToClient_counted (f : ReplyFlags) (ws : List WriteResult)
    (h : out.Accounted) :
    Counted (fun x => x.1.Accounted) (writeToClient netMaxWritesPerEvent f ws out) := by
  refine (writeLoop_counted netMaxWritesPerEvent f ws 0 h).map fun x hx => ?_
  split_ifs <;> exact hx

/-! ### A pool of clients -/

/-- A call on the output of one client. -/
inductive ReplyCall where
  | addReply (obj : StringObject) (slack : ℕ)
  | addReplySds (s : Bytes) (slack : ℕ)
  | addReplyProto (s : Bytes) (slack : ℕ)
  | addReplyDeferredLen (node : ℕ)
  | setDeferredAggregateLen (node : Option ℕ) (length : ℤ) (tag : UInt8) (slack : ℕ)
  | writeToClient (ws : List WriteResult)

/-- The output after a call, the bytes that the call wrote and the node it returned. -/
def replyCall (f : ReplyFlags) (out : Output) :
    ReplyCall → Except Fault (Output × Bytes × Option ℕ)
  | .addReply obj slack => (addReply f out obj slack).map fun out => (out, [], none)
  | .addReplySds s slack => .ok (addReplySds f out s slack, [], none)
  | .addReplyProto s slack => .ok (addReplyProto f out s slack, [], none)
  | .addReplyDeferredLen node =>
    let x := addReplyDeferredLen f out node
    .ok (x.1, [], x.2)
  | .setDeferredAggregateLen node length tag slack =>
    (setDeferredAggregateLen out node length tag slack).map fun out => (out, [], none)
  | .writeToClient ws =>
    (writeToClient netMaxWritesPerEvent f ws out).map fun x => (x.1, x.2.1, none)

theorem replyCall_counted (f : ReplyFlags) (call : ReplyCall) (h : out.Accounted) :
    Counted (fun x => x.1.Accounted) (replyCall netMaxWritesPerEvent f out call) := by
  cases call with
  | addReply obj slack => exact (addReply_counted f obj slack h).map fun _ hx => hx
  | addReplySds s slack => exact addReplyProto_accounted f s slack h
  | addReplyProto s slack => exact addReplyProto_accounted f s slack h
  | addReplyDeferredLen node => exact addReplyDeferredLen_accounted f node h
  | setDeferredAggregateLen node length tag slack =>
    exact (setDeferredAggregateLen_counted node length tag slack h).map fun _ hx => hx
  | writeToClient ws =>
    exact (writeToClient_counted netMaxWritesPerEvent f ws h).map fun _ hx => hx

/-- A call on the clients of a pool; the flags are those of the client that is to
take replies, at the time of the call. -/
inductive PoolCall where
  | createClient (c : ℕ)
  | reply (c : ℕ) (f : ReplyFlags) (call : ReplyCall)
  | addReplyFromClient (dst src : ℕ) (f : ReplyFlags) (slack : ℕ)
  | copyClientOutputBuffer (dst src : ℕ)

/-- The outputs of the clients after a call.  In `copyClientOutputBuffer` the list of
`dst` is released before that of `src` is read. -/
def poolStep (p : ℕ → Output) : PoolCall → Except Fault (ℕ → Output)
  | .createClient c => .ok (Function.update p c .empty)
  | .reply c f call =>
    (replyCall netMaxWritesPerEvent f (p c) call).map fun x => Function.update p c x.1
  | .addReplyFromClient dst src f slack =>
    let x := addReplyFromClient f (p dst) (p src) slack
    .ok (Function.update (Function.update p dst x.1) src x.2)
  | .copyClientOutputBuffer dst src =>
    if dst = src then .error .released
    else (copyClientOutputBuffer (p src)).map fun out => Function.update p dst out

/-- The outputs of the clients after a list of calls. -/
def poolRun : (ℕ → Output) → List PoolCall → Except Fault (ℕ → Output)
  | p, [] => .ok p
  | p, call :: calls => (poolStep netMaxWritesPerEvent p call).bind fun p => poolRun p calls

theorem forall_update {P : Output → Prop} (h : ∀ c, P (p c)) (c : ℕ)
    (hout : P out) : ∀ c', P (Function.update p c out c') := by
  intro c'
  rcases eq_or_ne c' c with rfl | hne
  · rwa [Function.update_self]
  · rw [Function.update_of_ne hne]
    exact h c'

theorem poolStep_counted (call : PoolCall) (h : ∀ c, (p c).Accounted) :
    Counted (fun p => ∀ c, (p c).Accounted) (poolStep netMaxWritesPerEvent p call) := by
  cases call with
  | createClient c => exact forall_update h c rfl
  | reply c f call =>
    exact (replyCall_counted netMaxWritesPerEvent f call (h c)).map fun x hx => forall_update h c hx
  | addReplyFromClient dst src f slack =>
    obtain ⟨hdst, hsrc⟩ := addReplyFromClient_accounted f slack (h dst) (h src)
    exact forall_update (forall_update h dst hdst) src hsrc
  | copyClientOutputBuffer dst src =>
    rw [poolStep]
    split
    · exact ⟨nofun, nofun⟩
    · exact (copyClientOutputBuffer_counted (h src)).map fun out hout => forall_update h dst hout

theorem poolRun_counted (calls : List PoolCall) (h : ∀ c, (p c).Accounted) :
    Counted (fun p => ∀ c, (p c).Accounted) (poolRun netMaxWritesPerEvent p calls) := by
  induction calls generalizing p with
  | nil => exact h
  | cons call calls ih =>
    exact (poolStep_counted netMaxWritesPerEvent call h).bind fun p hp => ih hp

/-- **The counter is exact.**  After any calls on clients that start without output,
`reply_bytes` of each is the sum of the sizes of its blocks, no block is used beyond
its size, and no call ends because the counter wraps or is left over. -/
theorem replyBytes_exact (calls : List PoolCall) :
    match poolRun netMaxWritesPerEvent (fun _ => Output.empty) calls with
    | .ok p => ∀ c, (p c).replyBytes = ((p c).reply.map ReplyNode.size).sum
        ∧ ∀ b, .block b ∈ (p c).reply → b.buf.length ≤ b.size
    | .error e => e ≠ .underflow ∧ e ≠ .replyBytesLeft := by
  have h := poolRun_counted netMaxWritesPerEvent calls (p := fun _ => Output.empty) fun _ => rfl
  cases hrun : poolRun netMaxWritesPerEvent (fun _ => Output.empty) calls with
  | ok p =>
    rw [hrun] at h
    exact fun c => ⟨h c, fun b _ => b.used_le⟩
  | error e =>
    rw [hrun] at h
    exact h

end

end Networking
