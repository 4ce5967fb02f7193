/-
The text of a client's output.

The output of a client denotes a text of bytes with a hole for each placeholder
(`Output.symbols`), of which `Output.pending` is still to be sent.  Each function
changes that text in one way: a reply is put at its end, `setDeferredAggregateLen`
fills a hole, and a `write(2)` takes what it sends off the front (`Output.Sends`).
-/
import DecomposeRedis.Holes
import DecomposeRedis.ReplyAccounting

namespace Networking

open Sds Holes

/-- A byte, or the placeholder at an address. -/
abbrev Symbol := UInt8 ⊕ ℕ

/-- The text of a node. -/
def ReplyNode.symbols : ReplyNode → List Symbol
  | .placeholder n => [.inr n]
  | .block b => ofList b.buf

/-- The text of a reply list. -/
def replySymbols (reply : List ReplyNode) : List Symbol := reply.flatMap ReplyNode.symbols

@[simp] theorem replySymbols_nil : replySymbols [] = [] := rfl

@[simp] theorem replySymbols_placeholder (n : ℕ) (reply : List ReplyNode) :
    replySymbols (.placeholder n :: reply) = [.inr n] ++ replySymbols reply := rfl

@[simp] theorem replySymbols_block (b : ReplyBlock) (reply : List ReplyNode) :
    replySymbols (.block b :: reply) = ofList b.buf ++ replySymbols reply := rfl

@[simp] theorem replySymbols_append (reply reply' : List ReplyNode) :
    replySymbols (reply ++ reply') = replySymbols reply ++ replySymbols reply' :=
  List.flatMap_append

/-- The text of the static buffer and of the list after it. -/
def Output.symbols (out : Output) : List Symbol := ofList out.buf ++ replySymbols out.reply

/-- The placeholders of the list. -/
def Output.holes (out : Output) : List ℕ := Holes.holes (replySymbols out.reply)

theorem Output.holes_symbols (out : Output) : Holes.holes out.symbols = out.holes := by
  rw [symbols, holes_append, holes_ofList]
  rfl

/-- The bytes of the first node, if that is a block. -/
def headBytes : List ReplyNode → Bytes
  | .block b :: _ => b.buf
  | _ => []

/-- What comes behind the first block does not shorten it. -/
theorem length_headBytes_append (reply tail : List ReplyNode) :
    (headBytes reply).length ≤ (headBytes (reply ++ tail)).length := by
  rcases reply with _ | ⟨_ | _, reply⟩
  · exact Nat.zero_le _
  · exact Nat.zero_le _
  · exact le_rfl

/-- What `sentlen` counts in: the static buffer, or the first block. -/
def Output.chunk (out : Output) : Bytes := if out.buf ≠ [] then out.buf else headBytes out.reply

/-- What is still to be sent: the static buffer from `sentlen` on and then the list,
or the list with its first block from `sentlen` on. -/
def Output.pending (out : Output) : List Symbol :=
  if out.buf ≠ [] then ofList (out.buf.drop out.sentlen) ++ replySymbols out.reply
  else
    match out.reply with
    | .block b :: rest => ofList (b.buf.drop out.sentlen) ++ replySymbols rest
    | reply => replySymbols reply

/-- A well-formed output.  What is sent of the first chunk is never all of it, and no
two placeholders have one address. -/
structure Output.Wf (out : Output) : Prop where
  accounted : out.Accounted
  sentlen : out.sentlen = 0 ∨ out.sentlen < out.chunk.length
  nodup : out.holes.Nodup

theorem Output.wf_empty : Output.empty.Wf := ⟨rfl, .inl rfl, List.nodup_nil⟩

variable {out out' : Output} {node : ℕ} {s : Bytes}

theorem Output.Wf.sentlen_le (h : out.Wf) : out.sentlen ≤ out.chunk.length := by
  have := h.sentlen
  omega

/-- The text starts with the chunk. -/
theorem Output.exists_symbols_eq (out : Output) :
    ∃ rest, out.symbols = ofList out.chunk ++ rest := by
  rw [chunk, symbols]
  split
  · exact ⟨_, rfl⟩
  · rename_i hbuf
    rw [not_not.mp hbuf]
    match out.reply with
    | [] => exact ⟨[], rfl⟩
    | .placeholder n :: rest => exact ⟨_, rfl⟩
    | .block b :: rest => exact ⟨_, rfl⟩

theorem drop_ofList_append (n : ℕ) (rest : List Symbol) (h : n ≤ s.length) :
    (ofList s ++ rest).drop n = ofList (s.drop n) ++ rest := by
  rw [List.drop_append_of_le_length (by simpa using h), ofList, ofList, List.map_drop]

/-- What is pending is the text from `sentlen` on. -/
theorem Output.Wf.pending_eq (h : out.Wf) :
    out.pending = out.symbols.drop out.sentlen := by
  have hle := h.sentlen_le
  rw [Output.chunk] at hle
  rw [Output.pending, Output.symbols]
  split at hle
  · rename_i hbuf
    rw [if_pos hbuf, drop_ofList_append _ _ hle]
  · rename_i hbuf
    rw [if_neg hbuf, not_not.mp hbuf, ofList_nil, List.nil_append]
    match hreply : out.reply with
    | [] => simp
    | .placeholder n :: rest =>
      rw [hreply] at hle
      rw [Nat.le_zero.mp hle]
      rfl
    | .block b :: rest =>
      rw [hreply] at hle
      exact (drop_ofList_append _ _ hle).symm

/-- The text is what was sent of the chunk and what is pending. -/
theorem Output.Wf.symbols_eq (h : out.Wf) :
    out.symbols = ofList (out.chunk.take out.sentlen) ++ out.pending := by
  obtain ⟨rest, hrest⟩ := out.exists_symbols_eq
  rw [h.pending_eq, hrest, drop_ofList_append _ _ h.sentlen_le, ← List.append_assoc,
    ← ofList_append, List.take_append_drop]

/-! ### Adding replies -/

/-- What adding to an output keeps: the counter, what was sent, and the addresses of
the placeholders. -/
structure Output.Grows (out out' : Output) : Prop where
  accounted : out'.Accounted
  sentlen : out'.sentlen = out.sentlen
  chunk : out.chunk.length ≤ out'.chunk.length

theorem Output.Grows.wf (h : out.Grows out') (hw : out.Wf)
    (hnodup : out'.holes.Nodup) : out'.Wf := by
  refine ⟨h.accounted, ?_, hnodup⟩
  rw [h.sentlen]
  exact hw.sentlen.imp_right fun hlt => hlt.trans_le h.chunk

/-- Text put at the end is pending at the end. -/
theorem Output.Grows.pending_append (h : out.Grows out') (hw : out.Wf)
    (hw' : out'.Wf) {t : List Symbol} (ht : out'.symbols = out.symbols ++ t) :
    out'.pending = out.pending ++ t := by
  have hlen : out.sentlen ≤ out.symbols.length := by
    obtain ⟨rest, hrest⟩ := out.exists_symbols_eq
    rw [hrest, List.length_append, length_ofList]
    exact hw.sentlen_le.trans (Nat.le_add_right _ _)
  rw [hw'.pending_eq, hw.pending_eq, ht, h.sentlen, List.drop_append_of_le_length hlen]

/-- A hole that is filled in the text is filled in what is pending. -/
theorem Output.Grows.pending_fill (h : out.Grows out') (hw : out.Wf)
    (hw' : out'.Wf) (ht : out'.symbols = fill node s out.symbols) :
    out'.pending = fill node s out.pending := by
  have hlen : (ofList (out.chunk.take out.sentlen) : List Symbol).length = out.sentlen := by
    rw [length_ofList, List.length_take, Nat.min_eq_left hw.sentlen_le]
  rw [hw'.pending_eq, ht, h.sentlen, hw.symbols_eq, fill_append, fill_ofList,
    List.drop_left' hlen]

theorem addBlock_symbols (reply : List ReplyNode) (s : Bytes) (slack : ℕ) :
    replySymbols (addBlock reply s slack).1 = replySymbols reply ++ ofList s := by
  rw [addBlock]
  split
  · rename_i hs
    simp [hs]
  · simp [ReplyBlock.alloc]

/-- A string may be split between the last block and a new one. -/
theorem appendToList_symbols (reply : List ReplyNode) (s : Bytes) (slack : ℕ) :
    replySymbols (appendToList reply s slack).1 = replySymbols reply ++ ofList s := by
  fun_induction appendToList reply s slack with
  | case1 tail s slack =>
    rw [addBlock_symbols, replySymbols_block, replySymbols_block]
    simp only [ReplyBlock.append, replySymbols_nil, List.append_nil]
    rw [ofList_append, List.append_assoc, ← ofList_append, List.take_append_drop]
  | case2 n n' reply s slack x ih =>
    show n.symbols ++ replySymbols x.1 = n.symbols ++ replySymbols (n' :: reply) ++ ofList s
    rw [ih, List.append_assoc]
  | case3 reply s slack => exact addBlock_symbols reply s slack

theorem headBytes_addBlock (reply : List ReplyNode) (s : Bytes) (slack : ℕ) :
    (headBytes reply).length ≤ (headBytes (addBlock reply s slack).1).length := by
  rw [addBlock]
  split
  · exact le_rfl
  · exact length_headBytes_append _ _

theorem headBytes_appendToList (reply : List ReplyNode) (s : Bytes) (slack : ℕ) :
    (headBytes reply).length ≤ (headBytes (appendToList reply s slack).1).length := by
  fun_cases appendToList reply s slack with
  | case1 tail =>
    refine le_trans ?_ (headBytes_addBlock _ _ _)
    simp [headBytes, ReplyBlock.append]
  | case2 n n' reply x =>
    cases n with
    | placeholder n => exact Nat.zero_le _
    | block b => exact le_rfl
  | case3 => exact headBytes_addBlock _ _ _

/-- What `addReplyProto` takes of a reply. -/
def accepted (f : ReplyFlags) (s : Bytes) : Bytes :=
  if prepareClientToWrite f && !f.closeAfterReply then s else []

/-- The reply is at the end of the text, in the static buffer or in the list. -/
theorem addReplyProto_spec (f : ReplyFlags) (s : Bytes) (slack : ℕ)
    (h : out.Accounted) :
    out.Grows (addReplyProto f out s slack)
      ∧ (addReplyProto f out s slack).symbols = out.symbols ++ ofList (accepted f s)
      ∧ (addReplyProto f out s slack).holes = out.holes := by
  have hacc := addReplyProto_accounted f s slack h
  have hsame : out.Grows out ∧ out.symbols = out.symbols ++ ofList [] ∧ out.holes = out.holes :=
    ⟨⟨h, rfl, le_rfl⟩, by simp, rfl⟩
  rw [accepted]
  by_cases hprep : prepareClientToWrite f
  case neg => simpa [addReplyProto, hprep] using hsame
  by_cases hclose : f.closeAfterReply
  case pos => simpa [addReplyProto, addReplyToBuffer, hprep, hclose] using hsame
  rw [if_pos (by simp [hprep, hclose])]
  rw [addReplyProto, if_neg (by simp [hprep]), addReplyToBuffer, if_neg hclose] at hacc ⊢
  have hlist : (addReplyProtoToList f out s slack).Accounted →
      out.Grows (addReplyProtoToList f out s slack)
      ∧ (addReplyProtoToList f out s slack).symbols = out.symbols ++ ofList s
      ∧ (addReplyProtoToList f out s slack).holes = out.holes := by
    rw [addReplyProtoToList, if_neg hclose]
    intro hacc
    refine ⟨⟨hacc, rfl, ?_⟩, ?_, ?_⟩
    · simp only [Output.chunk]
      split
      · exact le_rfl
      · exact headBytes_appendToList out.reply s slack
    · simp only [Output.symbols, appendToList_symbols, List.append_assoc]
    · simp only [Output.holes, appendToList_symbols, holes_append, holes_ofList, List.append_nil]
  by_cases hreply : out.reply ≠ []
  · rw [if_pos hreply] at hacc ⊢
    exact hlist hacc
  rw [if_neg hreply] at hacc ⊢
  by_cases hfit : s.length ≤ protoReplyChunkBytes - out.buf.length
  · -- the list is empty, and the reply goes behind the static buffer
    rw [dif_pos hfit] at hacc ⊢
    have hnil : out.reply = [] := not_not.mp hreply
    refine ⟨⟨hacc, rfl, ?_⟩, ?_, rfl⟩
    · simp only [Output.chunk, hnil]
      split
      · rename_i hbuf
        rw [Option.getD_some, if_pos (by simp [hbuf])]
        simp
      · exact Nat.zero_le _
    · simp [Output.symbols, hnil]
  · rw [dif_neg hfit] at hacc ⊢
    exact hlist hacc

theorem addReplyDeferredLen_spec (f : ReplyFlags) (node : ℕ) (h : out.Accounted)
    (hprep : prepareClientToWrite f) :
    out.Grows (addReplyDeferredLen f out node).1
      ∧ (addReplyDeferredLen f out node).1.symbols = out.symbols ++ [.inr node]
      ∧ (addReplyDeferredLen f out node).1.holes = out.holes ++ [node] := by
  have hacc := addReplyDeferredLen_accounted f node h
  rw [addReplyDeferredLen, if_neg (by simp [hprep])] at hacc ⊢
  refine ⟨⟨hacc, rfl, ?_⟩, ?_, ?_⟩
  · simp only [Output.chunk]
    split
    · exact le_rfl
    · exact length_headBytes_append _ _
  · simp [Output.symbols]
  · simp only [Output.holes, replySymbols_append, holes_append]
    rfl

theorem fillHead_symbols (s : Bytes) (slack : ℕ) (rest : List ReplyNode) :
    replySymbols (fillHead s slack rest).1 = ofList s ++ replySymbols rest := by
  match rest with
  | [] => rfl
  | .placeholder n :: rest => rfl
  | .block next :: rest =>
    rw [fillHead]
    split
    · simp [ReplyBlock.glue]
    · rfl

/-- The placeholder is found, and its hole is filled in front of what follows it. -/
theorem fillNode_spec (s : Bytes) (slack : ℕ) {reply : List ReplyNode}
    (hmem : node ∈ Holes.holes (replySymbols reply))
    (hnodup : (Holes.holes (replySymbols reply)).Nodup) :
    ∃ x, fillNode node s slack reply = .ok x
      ∧ replySymbols x.1 = fill node s (replySymbols reply)
      ∧ (headBytes reply).length ≤ (headBytes x.1).length := by
  induction reply with
  | nil => exact absurd hmem List.not_mem_nil
  | cons n rest ih =>
    cases n with
    | placeholder n =>
      rw [replySymbols_placeholder, holes_append, holes_hole, List.singleton_append] at hmem hnodup
      obtain ⟨hn, hrest⟩ := List.nodup_cons.mp hnodup
      rw [fillNode, replySymbols_placeholder, fill_append]
      rcases eq_or_ne n node with rfl | hne
      · -- no other hole has the address, so that the rest of the text stays
        refine ⟨_, if_pos rfl, ?_, Nat.zero_le _⟩
        rw [fillHead_symbols, fill_hole_self, fill_of_not_mem s hn]
      · obtain ⟨x, hx, hsymbols, -⟩ := ih ((List.mem_cons.mp hmem).resolve_left hne.symm) hrest
        refine ⟨(.placeholder n :: x.1, x.2), ?_, ?_, Nat.zero_le _⟩
        · rw [if_neg hne, hx]
          rfl
        · rw [replySymbols_placeholder, hsymbols, fill_hole_of_ne hne]
    | block b =>
      rw [replySymbols_block, holes_append, holes_ofList, List.nil_append] at hmem hnodup
      obtain ⟨x, hx, hsymbols, -⟩ := ih hmem hnodup
      refine ⟨(.block b :: x.1, x.2), ?_, ?_, le_rfl⟩
      · rw [fillNode, hx]
        rfl
      · rw [replySymbols_block, replySymbols_block, fill_append, fill_ofList, hsymbols]

theorem setDeferredAggregateLen_spec (length : ℤ) (tag : UInt8) (slack : ℕ) (hw : out.Wf)
    (hmem : node ∈ out.holes) :
    ∃ out', setDeferredAggregateLen out (some node) length tag slack = .ok out'
      ∧ out.Grows out' ∧ out'.symbols = fill node (lenstr length tag) out.symbols := by
  have hcount := setDeferredAggregateLen_counted (some node) length tag slack hw.accounted
  obtain ⟨x, hx, hsymbols, hhead⟩ := fillNode_spec (lenstr length tag) slack hmem hw.nodup
  rw [setDeferredAggregateLen, hx] at hcount ⊢
  refine ⟨_, rfl, ⟨hcount, rfl, ?_⟩, ?_⟩
  · simp only [Output.chunk]
    split
    · exact le_rfl
    · exact hhead
  · simp only [Output.symbols, fill_append, fill_ofList, hsymbols]

/-- The list of `src` is joined to that of `dst`, whatever the flags say once
`prepareClientToWrite` has agreed. -/
theorem addReplyFromClient_spec (f : ReplyFlags) {dst src : Output} (slack : ℕ)
    (hd : dst.Accounted) (hs : src.Accounted) (hprep : prepareClientToWrite f) :
    dst.Grows (addReplyFromClient f dst src slack).1
      ∧ (addReplyFromClient f dst src slack).1.symbols
        = dst.symbols ++ (ofList (accepted f src.buf) ++ replySymbols src.reply)
      ∧ (addReplyFromClient f dst src slack).1.holes = dst.holes ++ src.holes := by
  have hacc := (addReplyFromClient_accounted f slack hd hs).1
  obtain ⟨hgrows, hsymbols, hholes⟩ := addReplyProto_spec f src.buf slack hd
  rw [addReplyFromClient, if_neg (by simp [hprep])] at hacc ⊢
  refine ⟨⟨hacc, hgrows.sentlen, hgrows.chunk.trans ?_⟩, ?_, ?_⟩
  · simp only [Output.chunk]
    split
    · exact le_rfl
    · exact length_headBytes_append _ _
  · rw [← List.append_assoc, ← hsymbols]
    simp [Output.symbols]
  · rw [← hholes]
    simp [Output.holes]

/-! ### Writing to the socket -/

/-- What is sent from an offset on, and what is then left. -/
theorem take_append_drop_sent (s : Bytes) (sentlen n : ℕ) :
    (s.drop sentlen).take n ++ s.drop (sentlen + ((s.drop sentlen).take n).length)
      = s.drop sentlen := by
  rw [← List.drop_drop, List.length_take, List.take_eq_take_min, List.take_append_drop]

/-- What was sent of a chunk is not all of it, unless the chunk is done. -/
theorem sent_lt_length {sentlen n : ℕ} (hsent : sentlen = 0 ∨ sentlen < s.length)
    (hnot : ¬((s.drop sentlen).take n ≠ []
      ∧ sentlen + ((s.drop sentlen).take n).length = s.length)) :
    sentlen + ((s.drop sentlen).take n).length = 0
      ∨ sentlen + ((s.drop sentlen).take n).length < s.length := by
  by_cases hdata : (s.drop sentlen).take n = []
  · rw [hdata]
    exact hsent
  · have hne : sentlen + ((s.drop sentlen).take n).length ≠ s.length := fun h => hnot ⟨hdata, h⟩
    have hle : ((s.drop sentlen).take n).length ≤ s.length - sentlen := by
      rw [List.length_take, List.length_drop]
      exact Nat.min_le_right _ _
    right
    omega

/-- What one `write(2)` does: it takes bytes off the front of what is pending. -/
structure Output.Sends (out out' : Output) (data : Bytes) : Prop where
  wf : out'.Wf
  holes : out'.holes = []
  pending : ofList data ++ out'.pending = out.pending

theorem writeBuf_spec (hw : out.Wf) (hholes : out.holes = []) (hbuf : out.buf ≠ [])
    (n : ℕ) : ∃ out' data, writeBuf out n = .ok (out', data) ∧ out.Sends out' data := by
  have hcount := writeBuf_counted n hw.accounted
  have hsent := hw.sentlen
  have hle := hw.sentlen_le
  rw [Output.chunk, if_pos hbuf] at hsent hle
  have hsplit := take_append_drop_sent out.buf out.sentlen n
  have hpending : out.pending = ofList (out.buf.drop out.sentlen) ++ replySymbols out.reply :=
    if_pos hbuf
  rw [writeBuf, if_neg (by omega)] at hcount ⊢
  have hadvance := @sent_lt_length out.buf out.sentlen n hsent
  dsimp only at hcount ⊢
  generalize (out.buf.drop out.sentlen).take n = data at hcount hsplit hadvance ⊢
  by_cases hdone : data ≠ [] ∧ out.sentlen + data.length = out.buf.length
  · -- the buffer is sent, and what is pending is the list
    rw [if_pos hdone] at hcount ⊢
    rw [hdone.2, List.drop_length, List.append_nil] at hsplit
    have hw' : Output.Wf { out with buf := [], bufpos_le := Nat.zero_le _, sentlen := 0 } :=
      ⟨hcount, .inl rfl, hw.nodup⟩
    refine ⟨_, data, rfl, hw', hholes, ?_⟩
    rw [hw'.pending_eq, hpending, hsplit]
    rfl
  · rw [if_neg hdone] at hcount ⊢
    have hw' : Output.Wf { out with sentlen := out.sentlen + data.length } := by
      refine ⟨hcount, ?_, hw.nodup⟩
      rw [Output.chunk, if_pos hbuf]
      exact hadvance hdone
    refine ⟨_, data, rfl, hw', hholes, ?_⟩
    rw [hpending, Output.pending, if_pos hbuf, ← List.append_assoc, ← ofList_append, hsplit]

theorem writeBlock_spec {b : ReplyBlock} {rest : List ReplyNode} (hw : out.Wf)
    (hholes : out.holes = []) (hbuf : out.buf = []) (hreply : out.reply = .block b :: rest)
    (n : ℕ) :
    ∃ out' data, writeBlock out b rest n = .ok (out', data) ∧ out.Sends out' data := by
  have hcount := writeBlock_counted n hreply hw.accounted
  have hsent := hw.sentlen
  have hle := hw.sentlen_le
  rw [Output.chunk, if_neg (not_not.mpr hbuf), hreply, headBytes] at hsent hle
  have hsum : out.replyBytes = b.size + blockSizes rest := by
    rw [← blockSizes_block, ← hreply]
    exact hw.accounted
  have hsplit := take_append_drop_sent b.buf out.sentlen n
  have hpending : out.pending = ofList (b.buf.drop out.sentlen) ++ replySymbols rest := by
    rw [Output.pending, if_neg (not_not.mpr hbuf), hreply]
  have hrest : Holes.holes (replySymbols rest) = [] := by
    rw [Output.holes, hreply, replySymbols_block, holes_append, holes_ofList] at hholes
    exact hholes
  rw [writeBlock, if_neg (by omega)] at hcount ⊢
  have hadvance := @sent_lt_length b.buf out.sentlen n hsent
  dsimp only at hcount ⊢
  generalize (b.buf.drop out.sentlen).take n = data at hcount hsplit hadvance ⊢
  by_cases hdone : data ≠ [] ∧ out.sentlen + data.length = b.buf.length
  · -- the block is sent, and what is pending is the rest of the list
    have hleft : ¬(rest = [] ∧ out.replyBytes - b.size ≠ 0) := by
      rintro ⟨rfl, hne⟩
      rw [blockSizes_nil] at hsum
      omega
    rw [if_pos hdone, if_neg (by omega), if_neg hleft] at hcount ⊢
    rw [hdone.2, List.drop_length, List.append_nil] at hsplit
    have hw' : Output.Wf { out with
        reply := rest, sentlen := 0, replyBytes := out.replyBytes - b.size } := by
      refine ⟨hcount, .inl rfl, ?_⟩
      rw [Output.holes, hrest]
      exact List.nodup_nil
    refine ⟨_, data, rfl, hw', hrest, ?_⟩
    rw [hw'.pending_eq, hpending, hsplit]
    show _ ++ (ofList out.buf ++ replySymbols rest) = _
    rw [hbuf, ofList_nil, List.nil_append]
  · rw [if_neg hdone] at hcount ⊢
    have hw' : Output.Wf { out with sentlen := out.sentlen + data.length } := by
      refine ⟨hcount, ?_, hw.nodup⟩
      rw [Output.chunk, if_neg (not_not.mpr hbuf), hreply, headBytes]
      exact hadvance hdone
    refine ⟨_, data, rfl, hw', hholes, ?_⟩
    rw [hpending, Output.pending, if_neg (not_not.mpr hbuf), hreply, ← List.append_assoc,
      ← ofList_append, hsplit]

theorem writeOnce_spec (hw : out.Wf) (hholes : out.holes = []) (hchunk : out.chunk ≠ [])
    (n : ℕ) : ∃ out' data, writeOnce out n = .ok (out', data) ∧ out.Sends out' data := by
  rw [writeOnce]
  by_cases hbuf : out.buf ≠ []
  · rw [if_pos hbuf]
    exact writeBuf_spec hw hholes hbuf n
  · rw [if_neg hbuf]
    rw [Output.chunk, if_neg hbuf] at hchunk
    rcases hreply : out.reply with _ | ⟨node | b, rest⟩
    · exact absurd (congrArg headBytes hreply) hchunk
    · exact absurd (congrArg headBytes hreply) hchunk
    · exact writeBlock_spec hw hholes (not_not.mp hbuf) hreply n

/-- Only empty blocks are deleted, and then there is something to send, or nothing. -/
theorem skipEmpty_spec {reply : List ReplyNode} {replyBytes : ℕ}
    (hsum : replyBytes = blockSizes reply) (hholes : Holes.holes (replySymbols reply) = []) :
    ∃ x, skipEmpty reply replyBytes = .ok x ∧ replySymbols x.1 = replySymbols reply
      ∧ (headBytes reply ≠ [] → x.1 = reply) ∧ (x.1 = [] ∨ headBytes x.1 ≠ []) := by
  fun_induction skipEmpty reply replyBytes with
  | case1 replyBytes => exact ⟨_, rfl, rfl, fun _ => rfl, .inl rfl⟩
  | case2 n rest replyBytes =>
    rw [replySymbols_placeholder, holes_append] at hholes
    exact absurd hholes (List.cons_ne_nil _ _)
  | case3 replyBytes b rest hb => exact ⟨_, rfl, rfl, fun _ => rfl, .inr hb⟩
  | case4 replyBytes b rest hb hlt =>
    rw [blockSizes_block] at hsum
    omega
  | case5 replyBytes b rest hb hle ih =>
    rw [replySymbols_block, holes_append, holes_ofList, List.nil_append] at hholes
    rw [blockSizes_block] at hsum
    obtain ⟨x, hx, hsymbols, -, hhead⟩ := ih (by omega) hholes
    refine ⟨x, hx, ?_, fun h => absurd (not_not.mp hb) h, hhead⟩
    rw [hsymbols, replySymbols_block, not_not.mp hb]
    rfl

theorem nextChunk_spec (hw : out.Wf) (hholes : out.holes = []) :
    ∃ out', nextChunk out = .ok out' ∧ out.Sends out' []
      ∧ (clientHasPendingReplies out' → out'.chunk ≠ []) := by
  have hcount := nextChunk_counted hw.accounted
  rw [nextChunk] at hcount ⊢
  by_cases hbuf : out.buf ≠ []
  · rw [if_pos hbuf]
    refine ⟨out, rfl, ⟨hw, hholes, rfl⟩, fun _ => ?_⟩
    rwa [Output.chunk, if_pos hbuf]
  · rw [if_neg hbuf] at hcount ⊢
    obtain ⟨x, hx, hsymbols, hsame, hhead⟩ := skipEmpty_spec hw.accounted hholes
    rw [hx] at hcount ⊢
    have hw' : Output.Wf { out with reply := x.1, replyBytes := x.2 } := by
      refine ⟨hcount, ?_, ?_⟩
      · -- where a part of the first block was sent, it is not empty
        refine hw.sentlen.imp_right fun hlt => ?_
        rw [Output.chunk, if_neg hbuf] at hlt ⊢
        have hne : headBytes out.reply ≠ [] := by
          intro hnil
          rw [hnil] at hlt
          exact absurd hlt (Nat.not_lt_zero _)
        rwa [hsame hne]
      · rw [Output.holes, hsymbols]
        exact hw.nodup
    refine ⟨_, rfl, ⟨hw', ?_, ?_⟩, ?_⟩
    · rw [Output.holes, hsymbols]
      exact hholes
    · rw [ofList_nil, List.nil_append, hw'.pending_eq, hw.pending_eq]
      simp only [Output.symbols, hsymbols]
    · intro hpend
      rw [Output.chunk, if_neg hbuf]
      refine hhead.resolve_left fun hnil => ?_
      have hpend : out.buf ≠ [] ∨ x.1 ≠ [] := by simpa [clientHasPendingReplies] using hpend
      exact hpend.elim hbuf fun h => h hnil

theorem Output.Sends.trans {out₁ out₂ : Output} {data data' : Bytes} (h : out.Sends out₁ data)
    (h' : out₁.Sends out₂ data') : out.Sends out₂ (data ++ data') := by
  refine ⟨h'.wf, h'.holes, ?_⟩
  rw [ofList_append, List.append_assoc, h'.pending, h.pending]

section

variable (netMaxWritesPerEvent : ℕ)

theorem writeLoop_spec (f : ReplyFlags) (ws : List WriteResult) (totwritten : ℕ)
    (hw : out.Wf) (hholes : out.holes = []) :
    ∃ out' data err, writeLoop netMaxWritesPerEvent f ws totwritten out = .ok (out', data, err)
      ∧ out.Sends out' data := by
  induction ws generalizing totwritten out with
  | nil =>
    obtain ⟨out₁, hnext, hsends, -⟩ := nextChunk_spec hw hholes
    refine ⟨out₁, [], false, ?_, hsends⟩
    rw [writeLoop, hnext]
    exact ite_self _
  | cons w ws ih =>
    obtain ⟨out₁, hnext, hsends, hchunk⟩ := nextChunk_spec hw hholes
    rw [writeLoop, hnext]
    show ∃ out' data err, ite _ _ _ = _ ∧ _
    by_cases hpend : clientHasPendingReplies out₁
    case neg =>
      rw [if_pos (by simpa using hpend)]
      exact ⟨out₁, [], false, rfl, hsends⟩
    rw [if_neg (by simpa using hpend)]
    cases w with
    | eagain => exact ⟨out₁, [], false, rfl, hsends⟩
    | error => exact ⟨out₁, [], true, rfl, hsends⟩
    | accepts n overMemory =>
      obtain ⟨out₂, data, honce, hsends₂⟩ :=
        writeOnce_spec hsends.wf hsends.holes (hchunk hpend) n
      have htwo : out.Sends out₂ data := hsends.trans hsends₂
      simp only [honce, Except.bind]
      split_ifs with hdata hmax
      · subst hdata
        exact ⟨out₂, [], false, rfl, htwo⟩
      · exact ⟨out₂, data, false, rfl, htwo⟩
      · obtain ⟨out₃, data', err, hloop, hsends₃⟩ :=
          ih (totwritten + data.length) hsends₂.wf hsends₂.holes
        rw [hloop]
        exact ⟨out₃, data ++ data', err, rfl, htwo.trans hsends₃⟩

theorem writeToClient_spec (f : ReplyFlags) (ws : List WriteResult) (hw : out.Wf)
    (hholes : out.holes = []) :
    ∃ out' data free, writeToClient netMaxWritesPerEvent f ws out = .ok (out', data, free)
      ∧ out.Sends out' data := by
  obtain ⟨out₁, data, err, hloop, hsends⟩ := writeLoop_spec netMaxWritesPerEvent f ws 0 hw hholes
  rw [writeToClient, hloop]
  show ∃ out' data' free, Except.ok (ite _ _ _) = _ ∧ _
  by_cases herr : err
  · rw [if_pos herr]
    exact ⟨out₁, data, err, rfl, hsends⟩
  rw [if_neg herr]
  by_cases hpend : clientHasPendingReplies out₁
  · rw [if_pos hpend]
    exact ⟨out₁, data, err, rfl, hsends⟩
  · rw [if_neg hpend]
    -- nothing is pending, and `sentlen` is 0 already
    have hzero : out₁.sentlen = 0 := by
      refine hsends.wf.sentlen.resolve_right fun hlt => ?_
      simp only [clientHasPendingReplies, Bool.or_eq_true, decide_eq_true_eq, not_or, not_not]
        at hpend
      rw [Output.chunk, hpend.1, hpend.2] at hlt
      exact absurd hlt (Nat.not_lt_zero _)
    refine ⟨_, data, _, rfl, ?_⟩
    have hout : { out₁ with sentlen := 0 } = out₁ := by rw [← hzero]
    show out.Sends { out₁ with sentlen := 0 } data
    rw [hout]
    exact hsends

end

end Networking
