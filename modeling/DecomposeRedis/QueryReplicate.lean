/-
The stream of a master.

A replica passes on to its own replicas what it has executed of the stream of its
master.  `pending_querybuf` keeps the bytes that were read and not passed on yet,
`read_reploff` counts what was read, and after each command outside of a transaction
`reploff` is set to the part of it that is parsed.  What is passed on is given by the
difference of `reploff` before and after a run of the loop, so the invariant
(`State.Link`) ties these offsets to the unparsed bytes in whatever buffer they are.
-/
import DecomposeRedis.QueryBatch

namespace Networking

open Sds

variable {W : Type} {env : Env W} {st s : State W}

/-! ### The loop and the offsets -/

/-- What a run of the loop does to the link: it parses, and moves `reploff` forward up
to what is parsed. -/
structure State.Advances (st s : State W) : Prop where
  pos : s.client.qbPos ≤ s.client.querybuf.length
  bulklen : -1 ≤ s.client.bulklen
  link : st.client.flags.SameLink s.client.flags
  pending : s.client.pendingQuerybuf = st.client.pendingQuerybuf
  read : s.client.readReploff = st.client.readReploff
  grows : st.client.reploff ≤ s.client.reploff
  parsed : s.client.reploff + s.client.rest.length ≤ s.client.readReploff
  log : forwarded s.log = forwarded st.log

theorem State.Advances.trans {s₁ s₂ : State W} (h₁ : st.Advances s₁) (h₂ : s₁.Advances s₂) :
    st.Advances s₂ where
  pos := h₂.pos
  bulklen := h₂.bulklen
  link := ⟨h₂.link.1.trans h₁.link.1, h₂.link.2.trans h₁.link.2⟩
  pending := h₂.pending.trans h₁.pending
  read := h₂.read.trans h₁.read
  grows := h₁.grows.trans h₂.grows
  parsed := h₂.parsed
  log := h₂.log.trans h₁.log

theorem Client.repl_eq {c c₁ : Client} (h : c₁.repl = c.repl) :
    c₁.pendingQuerybuf = c.pendingQuerybuf ∧ c₁.readReploff = c.readReploff ∧
      c₁.reploff = c.reploff := by
  obtain ⟨hpending, h⟩ := Prod.mk.inj h
  exact ⟨hpending, Prod.mk.inj h⟩

/-- The client is marked, reset, or goes on as it is, and the log gets a command. -/
theorem State.Advances.command (h : st.Advances s) (o : Outcome) (w : W) :
    st.Advances ⟨w, s.client.afterCommand o, s.log ++ [.command s.client.argv]⟩ := by
  have hoff : (s.client.executed o).reploff = s.client.readReploff - s.client.rest.length
      ∨ (s.client.executed o).reploff = s.client.reploff := by
    have hlen := s.client.length_rest
    have hpos := h.pos
    simp only [Client.executed]
    split
    · exact .inl (by omega)
    · exact .inr rfl
  have hparsed := h.parsed
  have hgrows := h.grows
  have hexec : st.Advances ⟨w, s.client.executed o, s.log ++ [.command s.client.argv]⟩ := by
    refine ⟨h.pos, h.bulklen, h.link, h.pending, h.read, ?_, ?_, ?_⟩
    · show st.client.reploff ≤ (s.client.executed o).reploff
      omega
    · show (s.client.executed o).reploff + (s.client.rest.length : ℤ) ≤ s.client.readReploff
      omega
    · rw [forwarded_append, ← h.log]
      exact List.append_nil _
  rw [Client.afterCommand_eq]
  split
  · exact ⟨hexec.pos, le_rfl, hexec.link, hexec.pending, hexec.read, hexec.grows,
      hexec.parsed, hexec.log⟩
  · exact hexec

theorem runRequest_advances (h : st.Advances s) : st.Advances (runRequest env s).state := by
  rw [runRequest]
  split
  · exact ⟨h.pos, le_rfl, h.link, h.pending, h.read, h.grows, h.parsed, h.log⟩
  split
  · exact ⟨h.pos, h.bulklen, h.link, h.pending, h.read, h.grows, h.parsed, h.log⟩
  · have hcmd := h.command (env.processCommand s.world s.client.flags s.client.argv).2
      (env.processCommand s.world s.client.flags s.client.argv).1
    simp only
    split <;> exact hcmd

/-- **A turn** of the loop. -/
theorem inputTurn_advances (h : st.Advances st) {t : Turn W} (hturn : inputTurn env st = some t) :
    st.Advances t.state := by
  have hsim : st.Sim st.client.flags.pendingRead st := ⟨rfl, rfl, .refl h.pos h.bulklen⟩
  have hparsed := h.parsed
  rcases (inputTurn_sim env hsim).cases_left with
    hnone | ⟨s, s', hstop, hs, hleaves⟩ | ⟨s, s', hrun, hs, hreq⟩
  · cases hnone.symm.trans hturn
  · obtain rfl := Option.some.inj (hstop.symm.trans hturn)
    obtain ⟨hpending, hread, hoff⟩ := Client.repl_eq hleaves.repl
    have hrest := hleaves.rest
    have hparsed' : s.client.reploff + s.client.rest.length ≤ s.client.readReploff := by omega
    exact ⟨hs.client.pos, hs.client.bulklen, hleaves.link, hpending, hread, hoff.ge, hparsed',
      hleaves.log⟩
  · obtain rfl := Option.some.inj (hrun.symm.trans hturn)
    obtain ⟨hpending, hread, hoff⟩ := Client.repl_eq hreq.repl
    have hrest := hreq.rest
    refine runRequest_advances ⟨hs.client.pos, hs.client.bulklen, ?_, hpending, hread, hoff.ge,
      by omega, by rw [hreq.log]⟩
    rw [hreq.flags]
    exact ⟨rfl, rfl⟩

/-- **A run** of the loop. -/
theorem inputLoop_advances (h : st.Advances st) {fuel : ℕ} {x : State W × Bool}
    (hrun : inputLoop env fuel st = some x) : st.Advances x.1 := by
  have hturn : ∀ {s t}, st.Advances s → inputTurn env s = some t → st.Advances t.state := by
    intro s t hs ht
    have hself : s.Advances s := ⟨hs.pos, hs.bulklen, ⟨rfl, rfl⟩, rfl, rfl, le_rfl, hs.parsed, rfl⟩
    exact hs.trans (inputTurn_advances hself ht)
  exact inputLoop_keeps (J := fun x => st.Advances x.1) id (fun hs _ => hturn hs)
    (fun hs _ => hturn hs)
    (fun hs _ => hturn hs) h hrun

theorem processInputBuffer_advances (h : st.Advances st)
    (hrun : processInputBuffer env st = some s) : st.Advances s := by
  rw [processInputBuffer] at hrun
  obtain ⟨x, hloop, rfl⟩ := Option.map_eq_some_iff.mp hrun
  have hx := inputLoop_advances h hloop
  split
  · rw [(Client.Sim.refl hx.pos hx.bulklen).trim]
    exact ⟨Nat.zero_le _, hx.bulklen, hx.link, hx.pending, hx.read, hx.grows, hx.parsed, hx.log⟩
  · exact hx

/-! ### The invariant of the link -/

/-- The link to a master after the bytes `stream` were read, from offset `start` on. -/
structure State.Link (stream : Bytes) (start : ℤ) (st : State W) : Prop where
  pos : st.client.qbPos ≤ st.client.querybuf.length
  bulklen : -1 ≤ st.client.bulklen
  master : st.client.flags.master = true
  read : st.client.readReploff = start + stream.length
  parsed : st.client.reploff + st.client.rest.length ≤ st.client.readReploff
  offset : st.client.reploff = start + (forwarded st.log).length
  stream : stream = forwarded st.log ++ st.client.pendingQuerybuf

variable {stream : Bytes} {start : ℤ}

theorem State.Link.advances (h : st.Link stream start) : st.Advances st :=
  ⟨h.pos, h.bulklen, ⟨rfl, rfl⟩, rfl, rfl, le_rfl, h.parsed, rfl⟩

theorem State.Link.length (h : st.Link stream start) :
    (st.client.pendingQuerybuf.length : ℤ) = st.client.readReploff - st.client.reploff := by
  have hread := h.read
  have hoffset := h.offset
  have hstream := congrArg List.length h.stream
  rw [List.length_append] at hstream
  omega

/-- **`processInputBufferAndReplicate`** passes on what was executed, and does not fail
to do so. -/
theorem processInputBufferAndReplicate_link (env : Env W) (h : st.Link stream start) :
    (processInputBuffer env st = none ∧ processInputBufferAndReplicate env st = none)
      ∨ ∃ s, processInputBufferAndReplicate env st = some s ∧ s.Link stream start := by
  rw [processInputBufferAndReplicate, if_neg (by simp [h.master])]
  rcases hrun : processInputBuffer env st with _ | s
  · exact .inl ⟨rfl, rfl⟩
  have hs := processInputBuffer_advances h.advances hrun
  have hlength := h.length
  obtain ⟨hgrows, hparsed, hpending, hread⟩ := And.intro hs.grows (And.intro hs.parsed
    (And.intro hs.pending hs.read))
  obtain ⟨n, hn⟩ : ∃ n : ℕ, s.client.reploff - st.client.reploff = n :=
    Int.eq_ofNat_of_zero_le (by omega)
  have hle : n ≤ st.client.pendingQuerybuf.length := by omega
  right
  simp only [Option.bind_some, hn, hpending]
  by_cases hzero : n = 0
  · rw [if_pos (by omega)]
    refine ⟨s, rfl, hs.pos, hs.bulklen, hs.link.2.trans h.master, hread.trans h.read,
      hparsed, ?_, ?_⟩
    · have := h.offset
      rw [hs.log]
      omega
    · rw [hs.log, hpending]
      exact h.stream
  · have hfed : forwarded (s.log ++ [.feedSlaves (st.client.pendingQuerybuf.take (n : ℤ).toNat)])
        = forwarded st.log ++ st.client.pendingQuerybuf.take n := by
      rw [forwarded_append, hs.log, Int.toNat_natCast]
      exact congrArg _ (List.append_nil _)
    rw [if_neg (by omega), if_neg (by omega)]
    refine ⟨_, rfl, hs.pos, hs.bulklen, hs.link.2.trans h.master, hread.trans h.read,
      hparsed, ?_, ?_⟩
    · show s.client.reploff = start + (forwarded (s.log ++ _)).length
      have := h.offset
      rw [hfed, List.length_append, List.length_take, min_eq_left hle]
      omega
    · show stream = forwarded (s.log ++ _) ++ sdsrange st.client.pendingQuerybuf n (-1)
      rw [hfed, sdsrange_neg_one _ hle, List.append_assoc, List.take_append_drop]
      exact h.stream

/-- The client with what was read from the master. -/
def Client.receives (c : Client) (data : Bytes) : Client :=
  { c with
    pendingQuerybuf := c.pendingQuerybuf ++ data
    readReploff := c.readReploff + data.length
    querybuf := c.querybuf ++ data }

theorem readQueryFromClient_master {data : Bytes} (hmaster : st.client.flags.master = true)
    (hne : data ≠ []) :
    readQueryFromClient env st (.bytes data)
      = if env.clientMaxQuerybufLen < (st.client.querybuf ++ data).length
        then some { st with client := freeClientAsync (st.client.receives data) }
        else processInputBufferAndReplicate env { st with client := st.client.receives data } := by
  rw [readQueryFromClient]
  case x => exact hne
  simp only [hmaster, if_true]
  rfl

theorem State.Link.receives (h : st.Link stream start) (data : Bytes) :
    State.Link (stream ++ data) start { st with client := st.client.receives data } := by
  have hrest : (st.client.receives data).rest = st.client.rest ++ data :=
    List.drop_append_of_le_length h.pos
  have hread := h.read
  have hparsed := h.parsed
  have hstream := h.stream
  refine ⟨?_, h.bulklen, h.master, ?_, ?_, h.offset, ?_⟩
  · show st.client.qbPos ≤ (st.client.querybuf ++ data).length
    have := h.pos
    rw [List.length_append]
    omega
  · show st.client.readReploff + data.length = start + (stream ++ data).length
    rw [List.length_append]
    omega
  · show st.client.reploff + (st.client.receives data).rest.length
        ≤ st.client.readReploff + data.length
    rw [hrest, List.length_append]
    omega
  · show stream ++ data = forwarded st.log ++ (st.client.pendingQuerybuf ++ data)
    rw [← List.append_assoc, ← hstream]

theorem State.Link.freeClientAsync {c : Client} {w : W} {log : List Event}
    (h : State.Link stream start ⟨w, c, log⟩) :
    State.Link stream start ⟨w, freeClientAsync c, log⟩ :=
  ⟨h.pos, h.bulklen, h.master, h.read, h.parsed, h.offset, h.stream⟩

/-! ### Runs -/

/-- What happens to the link: something is read, or the server changes, the client is
not blocked any more and its buffer is processed. -/
inductive LinkStep (W : Type) where
  | read (r : ReadResult)
  | unblock (f : W → W)

def linkStep (env : Env W) (st : State W) : LinkStep W → Option (State W)
  | .read r => readQueryFromClient env st r
  | .unblock f => processInputBufferAndReplicate env (st.unblocked.at (f st.world))

def ReadResult.received : ReadResult → Bytes
  | .bytes data => data
  | .eagain => []
  | .error => []

/-- The bytes that a step reads. -/
def LinkStep.received : LinkStep W → Bytes
  | .read r => r.received
  | .unblock _ => []

theorem linkStep_link (h : st.Link stream start) {step : LinkStep W}
    (hrun : linkStep env st step = some s) : s.Link (stream ++ step.received) start := by
  have hprocess : ∀ {st₁ : State W} {stream₁ : Bytes}, st₁.Link stream₁ start →
      processInputBufferAndReplicate env st₁ = some s → s.Link stream₁ start := by
    intro st₁ stream₁ h₁ hrun₁
    rcases processInputBufferAndReplicate_link env h₁ with ⟨-, hnone⟩ | ⟨s', hs', hlink⟩
    · cases hnone.symm.trans hrun₁
    · obtain rfl := Option.some.inj (hs'.symm.trans hrun₁)
      exact hlink
  have hnothing : s.Link stream start → s.Link (stream ++ []) start := by
    rw [List.append_nil]
    exact id
  cases step with
  | unblock f =>
    have hst : (st.unblocked.at (f st.world)).Link stream start :=
      ⟨h.pos, h.bulklen, h.master, h.read, h.parsed, h.offset, h.stream⟩
    exact hnothing (hprocess hst hrun)
  | read r =>
    cases r with
    | eagain => exact hnothing (Option.some.inj hrun ▸ h)
    | error => exact hnothing (Option.some.inj hrun ▸ h.freeClientAsync)
    | bytes data =>
      by_cases hne : data = []
      · subst hne
        exact hnothing (Option.some.inj hrun ▸ h.freeClientAsync)
      have hrun : readQueryFromClient env st (.bytes data) = some s := hrun
      rw [readQueryFromClient_master h.master hne] at hrun
      split at hrun
      · exact Option.some.inj hrun ▸ (h.receives data).freeClientAsync
      · exact hprocess (h.receives data) hrun

theorem processInputBufferAndReplicate_total (hsettle : env.Settles) (h : st.Link stream start)
    (hok : st.client.Ok env) :
    ∃ s, processInputBufferAndReplicate env st = some s ∧ s.client.Ok env := by
  obtain ⟨s, hrun, hloop, -⟩ := processInputBuffer_spec st hsettle hok
  rcases processInputBufferAndReplicate_link env h with ⟨hnone, -⟩ | ⟨s', hs', -⟩
  · cases hnone.symm.trans hrun
  refine ⟨s', hs', ?_⟩
  rw [processInputBufferAndReplicate, if_neg (by simp [h.master]), hrun] at hs'
  simp only [Option.bind_some] at hs'
  split_ifs at hs'
  · exact Option.some.inj hs' ▸ hloop.ok
  · obtain rfl := Option.some.inj hs'
    exact ⟨⟨hloop.ok.pos, hloop.ok.bulklen, hloop.ok.slots, hloop.ok.unknown⟩, hloop.ok.idle⟩

theorem Client.Ok.freeClientAsync {c : Client} (h : c.Ok env) : (freeClientAsync c).Ok env :=
  ⟨h.toBounds.held (by simp [Flags.held]) |>.toBounds, fun _ =>
    .inl (by simp [Networking.freeClientAsync, Flags.held])⟩

theorem linkStep_total (hsettle : env.Settles) (h : st.Link stream start) (hok : st.client.Ok env)
    (step : LinkStep W) : ∃ s, linkStep env st step = some s ∧ s.client.Ok env := by
  cases step with
  | unblock f =>
    have hst : (st.unblocked.at (f st.world)).Link stream start :=
      ⟨h.pos, h.bulklen, h.master, h.read, h.parsed, h.offset, h.stream⟩
    exact processInputBufferAndReplicate_total hsettle hst
      ⟨⟨hok.pos, hok.bulklen, hok.slots, hok.unknown⟩, hok.idle⟩
  | read r =>
    cases r with
    | eagain => exact ⟨st, rfl, hok⟩
    | error => exact ⟨_, rfl, hok.freeClientAsync⟩
    | bytes data =>
      by_cases hne : data = []
      · subst hne
        exact ⟨_, rfl, hok.freeClientAsync⟩
      have hreceives : (st.client.receives data).Ok env :=
        have h' := hok.arrives data
        ⟨⟨h'.pos, h'.bulklen, h'.slots, h'.unknown⟩, h'.idle⟩
      rw [linkStep, readQueryFromClient_master h.master hne]
      split
      · exact ⟨_, rfl, hreceives.freeClientAsync⟩
      · exact processInputBufferAndReplicate_total hsettle (h.receives data) hreceives

/-- A new client for the link with a master, at some offset. -/
def State.masterLink (w : W) (f : Flags) (offset : ℤ) : State W :=
  ⟨w, { freshClient with
    flags := { f with master := true }, readReploff := offset, reploff := offset }, []⟩

theorem State.masterLink_link (w : W) (f : Flags) (offset : ℤ) :
    (State.masterLink w f offset).Link [] offset :=
  ⟨le_rfl, le_rfl, rfl, (add_zero _).symm, (add_zero offset).le, (add_zero _).symm, rfl⟩

/-- The stream that was read in a run. -/
def received (steps : List (LinkStep W)) : Bytes := steps.flatMap LinkStep.received

theorem linkRun_link {steps : List (LinkStep W)} (h : st.Link stream start)
    (hrun : steps.foldlM (linkStep env) st = some s) : s.Link (stream ++ received steps) start := by
  induction steps generalizing st stream with
  | nil =>
    obtain rfl := Option.some.inj hrun
    rw [received, List.flatMap_nil, List.append_nil]
    exact h
  | cons step steps ih =>
    rw [List.foldlM_cons] at hrun
    obtain ⟨st₁, hstep, hrun⟩ := Option.bind_eq_some_iff.mp hrun
    have hs := ih (linkStep_link h hstep) hrun
    rw [List.append_assoc] at hs
    exact hs

theorem linkRun_total (hsettle : env.Settles) (h : st.Link stream start) (hok : st.client.Ok env)
    (steps : List (LinkStep W)) : ∃ s, steps.foldlM (linkStep env) st = some s := by
  induction steps generalizing st stream with
  | nil => exact ⟨st, rfl⟩
  | cons step steps ih =>
    obtain ⟨st₁, hstep, hok₁⟩ := linkStep_total hsettle h hok step
    obtain ⟨s, hrun⟩ := ih (linkStep_link h hstep) hok₁
    refine ⟨s, ?_⟩
    rw [List.foldlM_cons, hstep]
    exact hrun

/-- **The stream of a master is passed on without loss or duplication.**  What was
passed on is the part of the stream up to `reploff`, and `pending_querybuf` holds
exactly the bytes after it.  If every command settles the run goes through. -/
theorem master_stream_forwarded (env : Env W) (w : W) (f : Flags) (offset : ℤ)
    (steps : List (LinkStep W)) :
    (∀ st, steps.foldlM (linkStep env) (.masterLink w f offset) = some st →
      offset ≤ st.client.reploff
        ∧ ((forwarded st.log).length : ℤ) = st.client.reploff - offset
        ∧ received steps = forwarded st.log ++ st.client.pendingQuerybuf
        ∧ (st.client.pendingQuerybuf.length : ℤ) = st.client.readReploff - st.client.reploff
        ∧ st.client.readReploff = offset + (received steps).length)
      ∧ (env.Settles → ∃ st, steps.foldlM (linkStep env) (.masterLink w f offset) = some st) := by
  refine ⟨fun st hrun => ?_, fun hsettle =>
    linkRun_total hsettle (State.masterLink_link w f offset) ?_ steps⟩
  · have h := linkRun_link (State.masterLink_link w f offset) hrun
    rw [List.nil_append] at h
    have hoffset := h.offset
    exact ⟨by omega, by omega, h.stream, h.length, h.read⟩
  · exact ⟨⟨le_rfl, .inl rfl, fun hn => absurd hn (lt_irrefl 0), fun _ => rfl⟩, fun _ =>
      .inr ⟨rfl, trivial⟩⟩

/-- A transaction, a blank line and an incomplete request, in three reads: the commands
after `MULTI` are passed on with `EXEC`. -/
def transaction : List (LinkStep Bool) :=
  ["MULTI\r\nPI", "NG\r\n", "EXEC\r\n\r\nPI"].map fun s => .read (.bytes s.toUTF8.toList)

/-- A server that only knows whether it is in a transaction. -/
def transactionServer : Env Bool where
  string2ll := quietServer.string2ll
  processCommand multi f argv :=
    let multi := (multi || argv = ["MULTI".toUTF8.toList]) && !(argv = ["EXEC".toUTF8.toList])
    (multi, ⟨true, { f with multi := multi }, false, false, false⟩)
  processGopherRequest w _ := w
  clientsArePaused _ := false
  luaTimedout _ := false
  gopherEnabled := false
  protoMaxBulkLen := 536870912
  clientMaxQuerybufLen := 1073741824

theorem transactionServer_settles : transactionServer.Settles :=
  fun _ _ _ => ⟨rfl, fun _ => Bool.and_false _, nofun⟩

theorem master_stream_forwarded_transaction :
    ∃ st, transaction.foldlM (linkStep transactionServer) (.masterLink false .none 100) = some st
      ∧ received transaction = forwarded st.log ++ st.client.pendingQuerybuf
      ∧ (st.client.pendingQuerybuf.length : ℤ) = st.client.readReploff - st.client.reploff
      ∧ forwarded st.log = "MULTI\r\nPING\r\nEXEC\r\n".toUTF8.toList := by
  obtain ⟨hlink, htotal⟩ := master_stream_forwarded transactionServer false .none 100 transaction
  obtain ⟨st, hrun⟩ := htotal transactionServer_settles
  obtain ⟨-, -, hstream, hpending, -⟩ := hlink st hrun
  have hfed : (transaction.foldlM (linkStep transactionServer) (.masterLink false .none 100)).map
      (fun st => forwarded st.log) = some "MULTI\r\nPING\r\nEXEC\r\n".toUTF8.toList := by
    decide +kernel
  rw [hrun] at hfed
  exact ⟨st, hrun, hstream, hpending, Option.some.inj hfed⟩

end Networking
