/-
Replies reach the socket in order.

A run is a list of calls for one client, each with the flags of the client at that
time.  `ClientCall.Writes` says what a call does to the text of what was written and
what is pending, and so what was written and what is pending are together the replies
in the order of the calls (`replies_in_order`).

`CLIENT_CLOSE_AFTER_REPLY` is looked at where bytes are copied, but neither where a
placeholder is put into the list and filled nor where `AddReplyFromClient` joins two
lists, so that the output can still grow (`closing_output_fixed_iff`).
-/
import DecomposeRedis.ReplyText
import DecomposeRedis.Runs

namespace Networking

open Sds Holes

section

variable (netMaxWritesPerEvent : ℕ)

/-- A call for one client: on its own output, or one that appends the output of
another. -/
inductive ClientCall where
  | own (call : ReplyCall)
  | addReplyFromClient (src : Output) (slack : ℕ)

/-- One call, with the flags of the client at that time.  The state is the output and
what was written so far. -/
def clientStep (st : Output × Bytes) (c : ReplyFlags × ClientCall) :
    Option ((Output × Bytes) × Option ℕ) :=
  match c.2 with
  | .own call =>
    (replyCall netMaxWritesPerEvent c.1 st.1 call).toOption.map fun x =>
      ((x.1, st.2 ++ x.2.1), x.2.2)
  | .addReplyFromClient src slack =>
    some (((addReplyFromClient c.1 st.1 src slack).1, st.2), none)

/-- How the calls are used: a new node has an address of its own, a node is filled
once, every node is filled before the next write, and what is appended comes from a
client whose counter is exact. -/
def CallOk (st : Output × Bytes) (c : ReplyFlags × ClientCall) : Prop :=
  match c.2 with
  | .own (.addReply obj _) => obj ≠ .other
  | .own (.addReplySds _ _) => True
  | .own (.addReplyProto _ _) => True
  | .own (.addReplyDeferredLen node) => node ∉ st.1.holes
  | .own (.setDeferredAggregateLen none _ _ _) => True
  | .own (.setDeferredAggregateLen (some node) _ _ _) => node ∈ st.1.holes
  | .own (.writeToClient _) => st.1.holes = []
  | .addReplyFromClient src _ => src.Accounted ∧ (st.1.holes ++ src.holes).Nodup

instance (st : Output × Bytes) (c : ReplyFlags × ClientCall) : Decidable (CallOk st c) :=
  match c with
  | (_, .own (.addReply obj _)) => inferInstanceAs (Decidable (obj ≠ .other))
  | (_, .own (.addReplySds _ _)) => .isTrue trivial
  | (_, .own (.addReplyProto _ _)) => .isTrue trivial
  | (_, .own (.addReplyDeferredLen node)) => inferInstanceAs (Decidable (node ∉ st.1.holes))
  | (_, .own (.setDeferredAggregateLen none _ _ _)) => .isTrue trivial
  | (_, .own (.setDeferredAggregateLen (some node) _ _ _)) =>
    inferInstanceAs (Decidable (node ∈ st.1.holes))
  | (_, .own (.writeToClient _)) => inferInstanceAs (Decidable (st.1.holes = []))
  | (_, .addReplyFromClient src _) =>
    inferInstanceAs (Decidable (src.Accounted ∧ (st.1.holes ++ src.holes).Nodup))

namespace ClientCall

/-- The reply of a call, as a text. -/
def reply : ClientCall → List Symbol
  | own (.addReply (.sdsEncoded s) _) => ofList s
  | own (.addReply (.int value) _) => ofList (decimalInt value)
  | own (.addReply .other _) => []
  | own (.addReplySds s _) => ofList s
  | own (.addReplyProto s _) => ofList s
  | own (.addReplyDeferredLen node) => [.inr node]
  | own (.setDeferredAggregateLen _ _ _ _) => []
  | own (.writeToClient _) => []
  | addReplyFromClient src _ => src.symbols

/-- What a call puts into the list without a look at `CLIENT_CLOSE_AFTER_REPLY`. -/
def unguarded : ClientCall → List Symbol
  | own (.addReplyDeferredLen node) => [.inr node]
  | own _ => []
  | addReplyFromClient src _ => replySymbols src.reply

/-- What a call puts at the end of the output. -/
def appended (f : ReplyFlags) (call : ClientCall) : List Symbol :=
  if !prepareClientToWrite f then [] else if f.closeAfterReply then call.unguarded else call.reply

/-- The hole that a call fills. -/
def fills : ClientCall → List Symbol → List Symbol
  | own (.setDeferredAggregateLen (some node) length tag _), t => fill node (lenstr length tag) t
  | _, t => t

/-- The node that a call returns. -/
def node (f : ReplyFlags) : ClientCall → Option ℕ
  | own (.addReplyDeferredLen node) => if !prepareClientToWrite f then none else some node
  | _ => none

end ClientCall

theorem Output.Wf.holes_pending {out : Output} (h : out.Wf) :
    Holes.holes out.pending = out.holes := by
  rw [← out.holes_symbols, h.symbols_eq, holes_append, holes_ofList, List.nil_append]

/-- What a call does to the text of what was written and what is pending. -/
structure ClientCall.Writes (f : ReplyFlags) (call : ClientCall)
    (st st' : Output × Bytes) : Prop where
  wf : st'.1.Wf
  text : ofList st'.2 ++ st'.1.pending
    = call.fills (ofList st.2 ++ st.1.pending) ++ call.appended f

variable {f : ReplyFlags} {call : ClientCall}

/-- A call that puts text at the end of the output. -/
theorem ClientCall.Writes.of_append {out out' : Output}
    {written : Bytes} (hw : out.Wf) (hgrows : out.Grows out')
    (hsymbols : out'.symbols = out.symbols ++ call.appended f) (hnodup : out'.holes.Nodup)
    (hfills : ∀ t, call.fills t = t) : call.Writes f (out, written) (out', written) := by
  have hw' := hgrows.wf hw hnodup
  refine ⟨hw', ?_⟩
  rw [hfills, List.append_assoc, hgrows.pending_append hw hw' hsymbols]

variable {st st' : Output × Bytes}

theorem ClientCall.Writes.refl
    (hw : st.1.Wf) (hfills : ∀ t, call.fills t = t) (happ : call.appended f = []) :
    call.Writes f st st := by
  refine ⟨hw, ?_⟩
  rw [hfills, happ, List.append_nil]

theorem ClientCall.Writes.addReplyProto
    {s : Bytes} (slack : ℕ) (hw : st.1.Wf) (hfills : ∀ t, call.fills t = t)
    (hreply : call.reply = ofList s) (hunguarded : call.unguarded = []) :
    call.Writes f st (Networking.addReplyProto f st.1 s slack, st.2) := by
  obtain ⟨hgrows, hsymbols, hholes⟩ := addReplyProto_spec f s slack hw.accounted
  refine .of_append hw hgrows ?_ (hholes ▸ hw.nodup) hfills
  rw [hsymbols, appended, hreply, hunguarded, accepted]
  cases prepareClientToWrite f <;> cases f.closeAfterReply <;> rfl

theorem ClientCall.Writes.addReplyDeferredLen {node : ℕ}
    (hw : st.1.Wf) (hnode : node ∉ st.1.holes) :
    (own (.addReplyDeferredLen node)).Writes f st
      ((Networking.addReplyDeferredLen f st.1 node).1, st.2) := by
  by_cases hprep : prepareClientToWrite f
  · obtain ⟨hgrows, hsymbols, hholes⟩ := addReplyDeferredLen_spec f node hw.accounted hprep
    refine .of_append hw hgrows ?_ ?_ fun _ => rfl
    · rw [hsymbols, appended, if_neg (by simp [hprep])]
      split <;> rfl
    · rw [hholes]
      refine List.nodup_append.mpr ⟨hw.nodup, List.nodup_singleton node, ?_⟩
      rintro a ha b hb rfl
      exact hnode (List.mem_singleton.mp hb ▸ ha)
  · rw [Networking.addReplyDeferredLen, if_pos (by simp [hprep])]
    exact .refl hw (fun _ => rfl) (if_pos (by simp [hprep]))

theorem ClientCall.Writes.addReplyFromClient {src : Output}
    (slack : ℕ) (hw : st.1.Wf) (hsrc : src.Accounted) (hnodup : (st.1.holes ++ src.holes).Nodup) :
    (ClientCall.addReplyFromClient src slack).Writes f st
      ((Networking.addReplyFromClient f st.1 src slack).1, st.2) := by
  by_cases hprep : prepareClientToWrite f
  · obtain ⟨hgrows, hsymbols, hholes⟩ := addReplyFromClient_spec f slack hw.accounted hsrc hprep
    refine .of_append hw hgrows ?_ (hholes ▸ hnodup) fun _ => rfl
    rw [hsymbols, appended, if_neg (by simp [hprep]), accepted, hprep]
    cases f.closeAfterReply <;> rfl
  · rw [Networking.addReplyFromClient, if_pos (by simp [hprep])]
    exact .refl hw (fun _ => rfl) (if_pos (by simp [hprep]))

/-- Every call that is used as it should does to the text what it is for. -/
theorem clientStep_spec (hw : st.1.Wf)
    (hok : CallOk st (f, call)) :
    ∃ st', clientStep netMaxWritesPerEvent st (f, call) = some (st', call.node f)
      ∧ call.Writes f st st' := by
  match call with
  | .own (.addReply (.sdsEncoded s) slack) =>
    refine ⟨(addReplyProto f st.1 s slack, st.2), ?_,
      .addReplyProto slack hw (fun _ => rfl) rfl rfl⟩
    simp [clientStep, replyCall, addReply, Except.map, Except.toOption, ClientCall.node]
  | .own (.addReply (.int value) slack) =>
    refine ⟨(addReplyProto f st.1 (decimalInt value) slack, st.2), ?_,
      .addReplyProto slack hw (fun _ => rfl) rfl rfl⟩
    simp [clientStep, replyCall, addReply, Except.map, Except.toOption, ClientCall.node]
  | .own (.addReply .other slack) => exact absurd rfl hok
  | .own (.addReplySds s slack) =>
    refine ⟨(addReplyProto f st.1 s slack, st.2), ?_,
      .addReplyProto slack hw (fun _ => rfl) rfl rfl⟩
    simp [clientStep, replyCall, addReplySds, Except.toOption, ClientCall.node]
  | .own (.addReplyProto s slack) =>
    refine ⟨(addReplyProto f st.1 s slack, st.2), ?_,
      .addReplyProto slack hw (fun _ => rfl) rfl rfl⟩
    simp [clientStep, replyCall, Except.toOption, ClientCall.node]
  | .own (.addReplyDeferredLen node) =>
    refine ⟨((addReplyDeferredLen f st.1 node).1, st.2), ?_, .addReplyDeferredLen hw hok⟩
    have hnode : (addReplyDeferredLen f st.1 node).2
        = ClientCall.node f (.own (.addReplyDeferredLen node)) := by
      rw [addReplyDeferredLen, ClientCall.node]
      split <;> rfl
    rw [← hnode]
    simp [clientStep, replyCall, Except.toOption]
  | .own (.setDeferredAggregateLen none length tag slack) =>
    refine ⟨st, ?_, .refl hw (fun _ => rfl) ?_⟩
    · simp [clientStep, replyCall, setDeferredAggregateLen, Except.map, Except.toOption,
        ClientCall.node]
    · rw [ClientCall.appended]
      split_ifs <;> rfl
  | .own (.setDeferredAggregateLen (some node) length tag slack) =>
    obtain ⟨out', hset, hgrows, hsymbols⟩ := setDeferredAggregateLen_spec length tag slack hw hok
    have hw' : out'.Wf := by
      refine hgrows.wf hw ?_
      rw [← out'.holes_symbols, hsymbols, holes_fill, st.1.holes_symbols]
      exact hw.nodup.filter _
    refine ⟨(out', st.2), ?_, hw', ?_⟩
    · simp [clientStep, replyCall, hset, Except.map, Except.toOption, ClientCall.node]
    · have happ :
          (ClientCall.own (.setDeferredAggregateLen (some node) length tag slack)).appended f
          = [] := by
        rw [ClientCall.appended]
        split_ifs <;> rfl
      rw [happ, List.append_nil, ClientCall.fills, fill_append, fill_ofList,
        hgrows.pending_fill hw hw' hsymbols]
  | .own (.writeToClient ws) =>
    obtain ⟨out', data, free, hwrite, hsends⟩ :=
      writeToClient_spec netMaxWritesPerEvent f ws hw hok
    refine ⟨(out', st.2 ++ data), ?_, hsends.wf, ?_⟩
    · simp [clientStep, replyCall, hwrite, Except.map, Except.toOption, ClientCall.node]
    · have happ : (ClientCall.own (.writeToClient ws)).appended f = [] := by
        rw [ClientCall.appended]
        split_ifs <;> rfl
      rw [happ, List.append_nil, ClientCall.fills, ofList_append, List.append_assoc, hsends.pending]
      simp
  | .addReplyFromClient src slack =>
    exact ⟨_, rfl, .addReplyFromClient slack hw hok.1 hok.2⟩

/-- The replies so far after one more call: an accepted reply is the last one, and a
deferred length comes to the place of its placeholder. -/
def transcript (t : List Symbol) (c : ReplyFlags × ClientCall) : List Symbol × Option ℕ :=
  (c.2.fills t ++ if prepareClientToWrite c.1 then c.2.reply else [], c.2.node c.1)

/-- **Replies reach the socket in order.**  On a client without
`CLIENT_CLOSE_AFTER_REPLY`, what was written and what is pending are the replies of
the calls, each once and in their order. -/
theorem replies_in_order (calls : List (ReplyFlags × ClientCall))
    (hok : Runs.Meets (clientStep netMaxWritesPerEvent)
      (fun st c => CallOk st c ∧ c.1.closeAfterReply = false) (Output.empty, []) calls) :
    ∃ out written, Runs.run (clientStep netMaxWritesPerEvent) (Output.empty, []) calls
        = some ((out, written), (Runs.specRun transcript [] calls).2)
      ∧ ofList written ++ out.pending = (Runs.specRun transcript [] calls).1 := by
  have hstep : ∀ (st : Output × Bytes) (t : List Symbol) (c : ReplyFlags × ClientCall),
      (st.1.Wf ∧ ofList st.2 ++ st.1.pending = t) →
      (CallOk st c ∧ c.1.closeAfterReply = false) →
      ∃ st', clientStep netMaxWritesPerEvent st c = some (st', (transcript t c).2)
        ∧ st'.1.Wf ∧ ofList st'.2 ++ st'.1.pending = (transcript t c).1 := by
    rintro st _ ⟨f, call⟩ ⟨hw, rfl⟩ ⟨hok, hclose⟩
    obtain ⟨st', hst', hwrites⟩ := clientStep_spec netMaxWritesPerEvent hw hok
    refine ⟨st', hst', hwrites.wf, ?_⟩
    have hclose : f.closeAfterReply = false := hclose
    rw [hwrites.text, transcript, ClientCall.appended, hclose]
    cases prepareClientToWrite f <;> rfl
  obtain ⟨st', hrun, -, htext⟩ :=
    Runs.run_simulates hstep ⟨Output.wf_empty, by rfl⟩ hok
  exact ⟨st'.1, st'.2, hrun, htext⟩

/-- The flags of a client with a socket and nothing else about it. -/
def plainFlags : ReplyFlags where
  lua := false
  module := false
  replyOff := false
  replySkip := false
  master := false
  masterForceReply := false
  slave := false
  closeAfterReply := false
  fd := 8

/-- Two nested arrays, sent in two parts around the output of another client. -/
def nestedCalls : List (ReplyFlags × ClientCall) :=
  [.own (.addReplyDeferredLen 1), .own (.addReplyProto [97] 0), .own (.addReplyDeferredLen 2),
    .own (.addReplyProto [98, 99] 0), .own (.setDeferredAggregateLen (some 2) 1 42 0),
    .own (.setDeferredAggregateLen (some 1) 2 42 0),
    .own (.writeToClient [.accepts 3 false, .accepts 3 false, .eagain]),
    .addReplyFromClient ⟨[100], by decide, [.block ⟨4, [101, 102], by decide⟩], 0, 4⟩ 0,
    .own (.addReplyProto [103, 104, 105] 0),
    .own (.writeToClient [.accepts 9 false])].map fun call => (plainFlags, call)

theorem replies_in_order_nested :
    Runs.Meets (clientStep 65536) (fun st c => CallOk st c ∧ c.1.closeAfterReply = false)
        (Output.empty, []) nestedCalls
      ∧ ∃ out written, Runs.run (clientStep 65536) (Output.empty, []) nestedCalls
          = some ((out, written), (Runs.specRun transcript [] nestedCalls).2)
        ∧ ofList written ++ out.pending = (Runs.specRun transcript [] nestedCalls).1 :=
  have hok : Runs.Meets (clientStep 65536) (fun st c => CallOk st c ∧ c.1.closeAfterReply = false)
      (Output.empty, []) nestedCalls := by decide +kernel
  ⟨hok, replies_in_order 65536 nestedCalls hok⟩

-- `*2\r\n`, `a`, `*1\r\n`, `bc`, the other output `def` and `ghi`
example : (Runs.specRun transcript [] nestedCalls).1
    = ofList [42, 50, 13, 10, 97, 42, 49, 13, 10, 98, 99, 100, 101, 102, 103, 104, 105] := by
  decide +kernel

/-! ### A client that is to be closed -/

/-- The bytes that are still to be sent. -/
def Output.pendingBytes (out : Output) : Bytes := letters out.pending

/-- The calls that add bytes to the output of a client with `CLIENT_CLOSE_AFTER_REPLY`:
a placeholder is filled, or another client has bytes in its reply list. -/
def ClientCall.Leaks (f : ReplyFlags) : ClientCall → Prop
  | own (.setDeferredAggregateLen node _ _ _) => node ≠ none
  | own _ => False
  | addReplyFromClient src _ => prepareClientToWrite f ∧ letters (replySymbols src.reply) ≠ []

/-- One call on a client that is to be closed leaves the bytes as they are, or it adds
some. -/
theorem ClientCall.Writes.letters_eq
    (h : call.Writes f st st') (hclose : f.closeAfterReply = true) (hleaks : ¬call.Leaks f) :
    st'.2 ++ st'.1.pendingBytes = st.2 ++ st.1.pendingBytes := by
  have htext := congrArg letters h.text
  have hfills : call.fills (ofList st.2 ++ st.1.pending) = ofList st.2 ++ st.1.pending := by
    match call with
    | .own (.setDeferredAggregateLen (some node) _ _ _) => exact absurd nofun hleaks
    | .own (.setDeferredAggregateLen none _ _ _) => rfl
    | .own (.addReply _ _) | .own (.addReplySds _ _) | .own (.addReplyProto _ _)
    | .own (.addReplyDeferredLen _) | .own (.writeToClient _) | .addReplyFromClient _ _ => rfl
  have happ : letters (call.appended f) = [] := by
    rw [appended, hclose]
    by_cases hprep : prepareClientToWrite f
    case neg => rw [if_pos (by simp [hprep])]; rfl
    rw [if_neg (by simp [hprep]), if_pos rfl]
    match call with
    | .own (.addReplyDeferredLen node) => rfl
    | .own (.addReply _ _) | .own (.addReplySds _ _) | .own (.addReplyProto _ _)
    | .own (.setDeferredAggregateLen _ _ _ _) | .own (.writeToClient _) => rfl
    | .addReplyFromClient src _ =>
      by_contra hne
      exact hleaks ⟨hprep, hne⟩
  rw [letters_append, letters_append, letters_ofList, hfills, happ, List.append_nil, letters_append,
    letters_ofList] at htext
  exact htext

theorem ClientCall.Writes.length_le (h : call.Writes f st st') :
    (st.2 ++ st.1.pendingBytes).length ≤ (st'.2 ++ st'.1.pendingBytes).length := by
  have htext := congrArg (List.length ∘ letters) h.text
  have hfills : (letters (ofList st.2 ++ st.1.pending)).length
      ≤ (letters (call.fills (ofList st.2 ++ st.1.pending))).length := by
    match call with
    | .own (.setDeferredAggregateLen (some node) _ _ _) =>
      rw [fills, length_letters_fill]
      exact Nat.le_add_right _ _
    | .own (.setDeferredAggregateLen none _ _ _) => exact le_rfl
    | .own (.addReply _ _) | .own (.addReplySds _ _) | .own (.addReplyProto _ _)
    | .own (.addReplyDeferredLen _) | .own (.writeToClient _) | .addReplyFromClient _ _ =>
      exact le_rfl
  simp only [Function.comp_apply, letters_append, letters_ofList, List.length_append]
    at htext hfills ⊢
  show _ + (letters st.1.pending).length ≤ _ + (letters st'.1.pending).length
  omega

theorem ClientCall.Writes.length_lt (h : call.Writes f st st') (hw : st.1.Wf)
    (hok : CallOk st (f, call)) (hclose : f.closeAfterReply = true) (hleaks : call.Leaks f) :
    (st.2 ++ st.1.pendingBytes).length < (st'.2 ++ st'.1.pendingBytes).length := by
  have htext := congrArg (List.length ∘ letters) h.text
  match call with
  | .own (.setDeferredAggregateLen none _ _ _) => exact absurd rfl hleaks
  | .own (.setDeferredAggregateLen (some node) length tag _) =>
    have hcount : 0 < (Holes.holes (ofList st.2 ++ st.1.pending)).count node := by
      rw [holes_append, holes_ofList, List.nil_append, hw.holes_pending]
      exact List.count_pos_iff.mpr hok
    have hpos : 0 < (lenstr length tag).length := Nat.succ_pos _
    have hmul := Nat.mul_pos hcount hpos
    simp only [Function.comp_apply, fills, letters_append, List.length_append, length_letters_fill,
      letters_ofList] at htext ⊢
    show _ + (letters st.1.pending).length < _ + (letters st'.1.pending).length
    omega
  | .addReplyFromClient src _ =>
    have hpos := List.length_pos_of_ne_nil hleaks.2
    rw [appended, if_neg (by simp [hleaks.1]), if_pos hclose] at htext
    simp only [Function.comp_apply, fills, unguarded, letters_append, List.length_append,
      letters_ofList] at htext ⊢
    show _ + (letters st.1.pending).length < _ + (letters st'.1.pending).length
    omega

/-- From any well-formed output with `CLIENT_CLOSE_AFTER_REPLY` set, a run keeps the
bytes if no call leaks, and has more of them if one does. -/
theorem closing_run (hw : st.1.Wf) {calls : List (ReplyFlags × ClientCall)}
    (hok : Runs.Meets (clientStep netMaxWritesPerEvent) CallOk st calls)
    (hclose : ∀ c ∈ calls, c.1.closeAfterReply = true) :
    ∃ st' nodes, Runs.run (clientStep netMaxWritesPerEvent) st calls = some (st', nodes)
      ∧ (st.2 ++ st.1.pendingBytes).length ≤ (st'.2 ++ st'.1.pendingBytes).length
      ∧ ((∀ c ∈ calls, ¬c.2.Leaks c.1) →
        st'.2 ++ st'.1.pendingBytes = st.2 ++ st.1.pendingBytes)
      ∧ ((∃ c ∈ calls, c.2.Leaks c.1) →
        (st.2 ++ st.1.pendingBytes).length < (st'.2 ++ st'.1.pendingBytes).length) := by
  induction calls generalizing st with
  | nil => exact ⟨st, [], rfl, le_rfl, fun _ => rfl, fun ⟨_, hc, _⟩ => absurd hc List.not_mem_nil⟩
  | cons c calls ih =>
    obtain ⟨f, call⟩ := c
    obtain ⟨st₁, hst₁, hwrites⟩ := clientStep_spec netMaxWritesPerEvent hw hok.1
    obtain ⟨st₂, nodes, hrun, hle, hsame, hlt⟩ :=
      ih hwrites.wf (hok.2 st₁ _ hst₁) fun c hc => hclose c (List.mem_cons_of_mem _ hc)
    have hf : f.closeAfterReply = true := hclose (f, call) List.mem_cons_self
    refine ⟨st₂, call.node f :: nodes, ?_, hwrites.length_le.trans hle, ?_, ?_⟩
    · rw [Runs.run, hst₁, Option.bind_some, hrun]
      rfl
    · intro hno
      rw [hsame fun c hc => hno c (List.mem_cons_of_mem _ hc)]
      exact hwrites.letters_eq hf (hno (f, call) List.mem_cons_self)
    · rintro ⟨c, hc, hleaks⟩
      rcases List.mem_cons.mp hc with rfl | hc
      · exact (hwrites.length_lt hw hok.1 hf hleaks).trans_le hle
      · exact hwrites.length_le.trans_lt (hlt ⟨c, hc, hleaks⟩)

/-- **The output of a client that is to be closed** stays what it was, minus what was
sent, exactly if no call of the run leaks. -/
theorem closing_output_fixed_iff (out : Output) (hw : out.Wf)
    (calls : List (ReplyFlags × ClientCall))
    (hok : Runs.Meets (clientStep netMaxWritesPerEvent) CallOk (out, []) calls)
    (hclose : ∀ c ∈ calls, c.1.closeAfterReply = true) :
    ∃ out' written nodes,
      Runs.run (clientStep netMaxWritesPerEvent) (out, []) calls = some ((out', written), nodes)
        ∧ (written ++ out'.pendingBytes = out.pendingBytes ↔ ∀ c ∈ calls, ¬c.2.Leaks c.1) := by
  obtain ⟨st', nodes, hrun, -, hsame, hlt⟩ := closing_run netMaxWritesPerEvent hw hok hclose
  refine ⟨st'.1, st'.2, nodes, hrun, fun heq c hc hleaks => ?_, hsame⟩
  have hlen := hlt ⟨c, hc, hleaks⟩
  rw [heq] at hlen
  exact absurd hlen (lt_irrefl _)

/-- The flags of a client that is to be closed. -/
def closingFlags : ReplyFlags := { plainFlags with closeAfterReply := true }

/-- An error reply of which two bytes were sent. -/
def closingOutput : Output := ⟨[45, 69, 82, 82, 13, 10], by decide, [], 2, 0⟩

theorem closing_output_wf : closingOutput.Wf := ⟨rfl, .inr (by decide), List.nodup_nil⟩

/-- Replies without a deferred length, with a write between them. -/
def closingCalls : List (ReplyFlags × ClientCall) :=
  [.own (.addReplyProto [43, 79, 75] 0), .own (.writeToClient [.accepts 3 false, .eagain]),
    .own (.addReply (.int 7) 0)].map fun call => (closingFlags, call)

theorem closing_output_fixed_no_fill :
    closingOutput.Wf ∧ Runs.Meets (clientStep 65536) CallOk (closingOutput, []) closingCalls
      ∧ (∀ c ∈ closingCalls, c.1.closeAfterReply = true)
      ∧ ∃ out' written nodes,
        Runs.run (clientStep 65536) (closingOutput, []) closingCalls = some ((out', written), nodes)
          ∧ (written ++ out'.pendingBytes = closingOutput.pendingBytes
            ↔ ∀ c ∈ closingCalls, ¬c.2.Leaks c.1) :=
  have hok : Runs.Meets (clientStep 65536) CallOk (closingOutput, []) closingCalls := by
    decide +kernel
  have hclose : ∀ c ∈ closingCalls, c.1.closeAfterReply = true := by
    decide +kernel
  ⟨closing_output_wf, hok, hclose,
    closing_output_fixed_iff 65536 closingOutput closing_output_wf closingCalls hok hclose⟩

/-- A deferred length grows the output of a client that is to be closed by `*3\r\n`. -/
theorem closing_output_grows :
    ∃ out' nodes,
      Runs.run (clientStep 65536) (closingOutput, [])
          [(closingFlags, .own (.addReplyDeferredLen 1)),
            (closingFlags, .own (.setDeferredAggregateLen (some 1) 3 42 0))]
        = some ((out', []), nodes)
      ∧ out'.pendingBytes = closingOutput.pendingBytes ++ [42, 51, 13, 10] :=
  ⟨_, _, rfl, by decide +kernel⟩

end

end Networking
