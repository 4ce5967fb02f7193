/-
The output of a client (networking.c, from `addReplyProto` to `writeToClient`).

Replies go to the static buffer `buf` as long as they fit, and then to the list
`reply` of blocks, which end with some room: a block takes over the internal
fragmentation of its allocation.  `addReplyDeferredLen` puts an empty node into the
list, which `setDeferredAggregateLen` fills later or glues to the block after it.
`sentlen` is what has been sent of the static buffer or, when that is empty, of the
first block.

A list node is named by its address.  A `Fault` is where the behaviour of the code
ends: a failed assertion, a `NULL` block that is read, a length that wraps.  The limit
of the output buffer and the queue of clients with pending writes do not touch the
buffers and are left out; `NET_MAX_WRITES_PER_EVENT` is not defined in the files at
hand, and neither is the allocator, which gives `slack` bytes more than asked for.
-/
import DecomposeRedis.Sds

namespace Networking

open Sds

/-- `PROTO_REPLY_CHUNK_BYTES` -/
def protoReplyChunkBytes : ℕ := 16384

/-- What the functions here look at of a client besides its buffers. -/
structure ReplyFlags where
  lua : Bool
  module : Bool
  replyOff : Bool
  replySkip : Bool
  master : Bool
  masterForceReply : Bool
  slave : Bool
  closeAfterReply : Bool
  fd : ℤ
  deriving DecidableEq

/-- `clientReplyBlock`: the bytes that are used, of `size` many. -/
structure ReplyBlock where
  size : ℕ
  buf : Bytes
  used_le : buf.length ≤ size

/-- A node of the reply list: a placeholder at its address, or a block. -/
inductive ReplyNode where
  | placeholder (node : ℕ)
  | block (b : ReplyBlock)

/-- The output of a client; `bufpos` is the length of `buf`. -/
structure Output where
  buf : Bytes
  bufpos_le : buf.length ≤ protoReplyChunkBytes
  reply : List ReplyNode
  sentlen : ℕ
  replyBytes : ℕ

/-- The output of a fresh client. -/
def Output.empty : Output := ⟨[], Nat.zero_le _, [], 0, 0⟩

/-- Where the code fails. -/
inductive Fault where
  /-- a placeholder is read as a block -/
  | nullBlock
  /-- the node to fill is no placeholder of the list -/
  | badNode
  /-- `sentlen` is beyond the bytes to send, so that their number wraps -/
  | overread
  /-- `reply_bytes` wraps -/
  | underflow
  /-- the list is empty and `reply_bytes` is not zero -/
  | replyBytesLeft
  /-- a list is read after its release -/
  | released
  /-- `serverPanic` -/
  | panic
  deriving DecidableEq

/-- `prepareClientToWrite`, whether it returns `C_OK`. -/
def prepareClientToWrite (f : ReplyFlags) : Bool :=
  if f.lua || f.module then true
  else if f.replyOff || f.replySkip then false
  else if f.master && !f.masterForceReply then false
  else decide (0 < f.fd)

/-- `clientHasPendingReplies` -/
def clientHasPendingReplies (out : Output) : Bool := out.buf ≠ [] || out.reply ≠ []

/-! ### Adding replies -/

/-- `_addReplyToBuffer`; `none` stands for `C_ERR`. -/
def addReplyToBuffer (f : ReplyFlags) (out : Output) (s : Bytes) : Option Output :=
  if f.closeAfterReply then some out
  else if out.reply ≠ [] then none
  else if h : s.length ≤ protoReplyChunkBytes - out.buf.length then
    some { out with
      buf := out.buf ++ s
      bufpos_le := by
        have := out.bufpos_le
        rw [List.length_append]
        omega }
  else none

/-- A new block for the bytes `s`, in an allocation with room for `size` bytes at
least. -/
def ReplyBlock.alloc (s : Bytes) (size slack : ℕ) : ReplyBlock where
  size := max s.length size + slack
  buf := s
  used_le := (le_max_left _ _).trans (Nat.le_add_right _ _)

/-- Copy what fits of `s` behind the bytes of a block. -/
def ReplyBlock.append (b : ReplyBlock) (s : Bytes) : ReplyBlock where
  size := b.size
  buf := b.buf ++ s.take (b.size - b.buf.length)
  used_le := by
    have := b.used_le
    rw [List.length_append, List.length_take]
    omega

/-- The list with a block for the bytes `s` at the end, and the size of the block. -/
def addBlock (reply : List ReplyNode) (s : Bytes) (slack : ℕ) : List ReplyNode × ℕ :=
  if s = [] then (reply, 0)
  else
    let b := ReplyBlock.alloc s protoReplyChunkBytes slack
    (reply ++ [.block b], b.size)

/-- Append the bytes `s` to the list: to its last block as far as they fit, and the
rest in a new one. -/
def appendToList : List ReplyNode → Bytes → ℕ → List ReplyNode × ℕ
  | [.block tail], s, slack =>
    addBlock [.block (tail.append s)] (s.drop (tail.size - tail.buf.length)) slack
  | n :: n' :: reply, s, slack =>
    let x := appendToList (n' :: reply) s slack
    (n :: x.1, x.2)
  | reply, s, slack => addBlock reply s slack

/-- `_addReplyProtoToList` -/
def addReplyProtoToList (f : ReplyFlags) (out : Output) (s : Bytes) (slack : ℕ) : Output :=
  if f.closeAfterReply then out
  else
    let x := appendToList out.reply s slack
    { out with reply := x.1, replyBytes := out.replyBytes + x.2 }

/-- `addReplyProto` -/
def addReplyProto (f : ReplyFlags) (out : Output) (s : Bytes) (slack : ℕ) : Output :=
  if !prepareClientToWrite f then out
  else (addReplyToBuffer f out s).getD (addReplyProtoToList f out s slack)

/-- `addReplySds`, which also frees the string -/
def addReplySds (f : ReplyFlags) (out : Output) (s : Bytes) (slack : ℕ) : Output :=
  addReplyProto f out s slack

/-- A string object by its encoding: as an sds string, as an integer, or none that
`addReply` knows. -/
inductive StringObject where
  | sdsEncoded (ptr : Bytes)
  | int (value : ℤ)
  | other
  deriving DecidableEq

/-- `addReply` -/
def addReply (f : ReplyFlags) (out : Output) (obj : StringObject) (slack : ℕ) :
    Except Fault Output :=
  match obj with
  | .sdsEncoded s => .ok (addReplyProto f out s slack)
  | .int value => .ok (addReplyProto f out (decimalInt value) slack)
  | .other => if !prepareClientToWrite f then .ok out else .error .panic

/-- `addReplyDeferredLen`, with the address of the new list node. -/
def addReplyDeferredLen (f : ReplyFlags) (out : Output) (node : ℕ) : Output × Option ℕ :=
  if !prepareClientToWrite f then (out, none)
  else ({ out with reply := out.reply ++ [.placeholder node] }, some node)

/-- `lenstr` of `setDeferredAggregateLen` -/
def lenstr (length : ℤ) (tag : UInt8) : Bytes := tag :: decimalInt length ++ [13, 10]

/-- Glue the bytes `s` in front of a block. -/
def ReplyBlock.glue (b : ReplyBlock) (s : Bytes) (h : s.length ≤ b.size - b.buf.length) :
    ReplyBlock where
  size := b.size
  buf := s ++ b.buf
  used_le := by
    have := b.used_le
    rw [List.length_append]
    omega

/-- Fill the placeholder at the head of a list: glue it to the next block if there is
one with enough room that is not too large, or else make a block of it. -/
def fillHead (s : Bytes) (slack : ℕ) (rest : List ReplyNode) : List ReplyNode × ℕ :=
  let b := ReplyBlock.alloc s 0 slack
  match rest with
  | .block next :: rest' =>
    if h : s.length ≤ next.size - next.buf.length ∧ next.buf.length < protoReplyChunkBytes * 4 then
      (.block (next.glue s h.1) :: rest', 0)
    else (.block b :: rest, b.size)
  | _ => (.block b :: rest, b.size)

/-- Fill the placeholder at the given address. -/
def fillNode (node : ℕ) (s : Bytes) (slack : ℕ) :
    List ReplyNode → Except Fault (List ReplyNode × ℕ)
  | [] => .error .badNode
  | .placeholder n :: rest =>
    if n = node then .ok (fillHead s slack rest)
    else (fillNode node s slack rest).map fun x => (.placeholder n :: x.1, x.2)
  | .block b :: rest => (fillNode node s slack rest).map fun x => (.block b :: x.1, x.2)

/-- `setDeferredAggregateLen`; `tag` is the first byte of the aggregate. -/
def setDeferredAggregateLen (out : Output) (node : Option ℕ) (length : ℤ) (tag : UInt8)
    (slack : ℕ) : Except Fault Output :=
  match node with
  | none => .ok out
  | some node =>
    (fillNode node (lenstr length tag) slack out.reply).map fun x =>
      { out with reply := x.1, replyBytes := out.replyBytes + x.2 }

/-- `AddReplyFromClient`: the output of `dst` and that of `src`. -/
def addReplyFromClient (f : ReplyFlags) (dst src : Output) (slack : ℕ) : Output × Output :=
  if !prepareClientToWrite f then (dst, src)
  else
    let dst := addReplyProto f dst src.buf slack
    ({ dst with reply := dst.reply ++ src.reply, replyBytes := dst.replyBytes + src.replyBytes },
      { src with buf := [], bufpos_le := Nat.zero_le _, reply := [], replyBytes := 0 })

/-- `listDup` with `dupClientReplyValue` -/
def dupReply : List ReplyNode → Except Fault (List ReplyNode)
  | [] => .ok []
  | .placeholder _ :: _ => .error .nullBlock
  | .block b :: rest => (dupReply rest).map (.block b :: ·)

/-- `copyClientOutputBuffer` for two clients: the output that `dst` gets. -/
def copyClientOutputBuffer (src : Output) : Except Fault Output :=
  (dupReply src.reply).map fun reply => { src with reply := reply, sentlen := 0 }

/-! ### Writing to the socket -/

/-- What `write(2)` does: it accepts at most `n` bytes, or fails.  After a write the
server may be over its memory limit. -/
inductive WriteResult where
  | accepts (n : ℕ) (overMemory : Bool)
  | eagain
  | error

/-- Delete the empty blocks at the head of the list.  The head must not be a
placeholder. -/
def skipEmpty : List ReplyNode → ℕ → Except Fault (List ReplyNode × ℕ)
  | [], replyBytes => .ok ([], replyBytes)
  | .placeholder _ :: _, _ => .error .nullBlock
  | .block b :: rest, replyBytes =>
    if b.buf ≠ [] then .ok (.block b :: rest, replyBytes)
    else if replyBytes < b.size then .error .underflow
    else skipEmpty rest (replyBytes - b.size)

/-- Send at most `n` bytes of the static buffer. -/
def writeBuf (out : Output) (n : ℕ) : Except Fault (Output × Bytes) :=
  if out.buf.length < out.sentlen then .error .overread
  else
    let data := (out.buf.drop out.sentlen).take n
    let sentlen := out.sentlen + data.length
    if data ≠ [] ∧ sentlen = out.buf.length then
      .ok ({ out with buf := [], bufpos_le := Nat.zero_le _, sentlen := 0 }, data)
    else .ok ({ out with sentlen := sentlen }, data)

/-- Send at most `n` bytes of the first block `b` of the list, before `rest`. -/
def writeBlock (out : Output) (b : ReplyBlock) (rest : List ReplyNode) (n : ℕ) :
    Except Fault (Output × Bytes) :=
  if b.buf.length < out.sentlen then .error .overread
  else
    let data := (b.buf.drop out.sentlen).take n
    let sentlen := out.sentlen + data.length
    if data ≠ [] ∧ sentlen = b.buf.length then
      if out.replyBytes < b.size then .error .underflow
      else if rest = [] ∧ out.replyBytes - b.size ≠ 0 then .error .replyBytesLeft
      else
        .ok ({ out with reply := rest, sentlen := 0, replyBytes := out.replyBytes - b.size }, data)
    else .ok ({ out with sentlen := sentlen }, data)

/-- One turn of the loop of `writeToClient`, when there is something to send. -/
def writeOnce (out : Output) (n : ℕ) : Except Fault (Output × Bytes) :=
  if out.buf ≠ [] then writeBuf out n
  else
    match out.reply with
    | .block b :: rest => writeBlock out b rest n
    | _ => .error .nullBlock

/-- The output at the next `write(2)` of the loop, past empty blocks. -/
def nextChunk (out : Output) : Except Fault Output :=
  if out.buf ≠ [] then .ok out
  else
    (skipEmpty out.reply out.replyBytes).map fun x =>
      { out with reply := x.1, replyBytes := x.2 }

section

variable (netMaxWritesPerEvent : ℕ)

/-- The loop of `writeToClient`, with what was written and whether a write failed for
good.  When there are no more results to come, `write(2)` fails with `EAGAIN`. -/
def writeLoop (f : ReplyFlags) :
    List WriteResult → ℕ → Output → Except Fault (Output × Bytes × Bool)
  | ws, totwritten, out =>
    (nextChunk out).bind fun out =>
    if !clientHasPendingReplies out then .ok (out, [], false)
    else
      match ws with
      | [] => .ok (out, [], false)
      | .eagain :: _ => .ok (out, [], false)
      | .error :: _ => .ok (out, [], true)
      | .accepts n overMemory :: ws =>
        (writeOnce out n).bind fun y =>
          -- `write(2)` returned 0
          if y.2 = [] then .ok (y.1, [], false)
          else
            let totwritten := totwritten + y.2.length
            if netMaxWritesPerEvent < totwritten ∧ !overMemory ∧ !f.slave then
              .ok (y.1, y.2, false)
            else
              (writeLoop f ws totwritten y.1).map fun z => (z.1, y.2 ++ z.2.1, z.2.2)

/-- `writeToClient`, with what was written and whether the client is to be freed. -/
def writeToClient (f : ReplyFlags) (ws : List WriteResult) (out : Output) :
    Except Fault (Output × Bytes × Bool) :=
  (writeLoop netMaxWritesPerEvent f ws 0 out).map fun x =>
    if x.2.2 then x
    else if clientHasPendingReplies x.1 then x
    else ({ x.1 with sentlen := 0 }, x.2.1, f.closeAfterReply)

end

end Networking
