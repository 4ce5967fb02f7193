/-
Reading from a client, over whole runs.

* `readAll_spec` — between two reads the buffer holds just what the machine cannot
  use yet, so a run of reads feeds the machine the pieces;
* `readAll_congr` — it does not matter how a stream is cut into reads;
* `Reached`, `Reached.ok` — the invariant of the parser in every state that a client
  can be in, whatever happens to its flags and to the server meanwhile.
-/
import DecomposeRedis.Resp
import DecomposeRedis.QueryRefine

namespace Networking

open Sds Transducer

variable {W : Type} {env : Env W} {st : State W} {c : Client}

/-! ### Runs of reads -/

/-- A fresh client. -/
def State.fresh (w : W) : State W := ⟨w, freshClient, []⟩

/-- The reads one after the other. -/
def readAll (env : Env W) (st : State W) (chunks : List Bytes) : Option (State W) :=
  chunks.foldlM (fun st data => readQueryFromClient env st (.bytes data)) st

/-- A client between two reads, if it is read by the main thread and is not the link
to a master. -/
structure State.Between (env : Env W) (st : State W) : Prop where
  ok : st.client.Ok env
  pos : st.client.qbPos = 0
  pendingRead : st.client.flags.pendingRead = false
  master : st.client.flags.master = false

theorem State.fresh_between (w : W) : (State.fresh w).Between env :=
  ⟨freshClient_ok env, rfl, rfl, rfl⟩

/-- What was read is appended to the buffer. -/
def Client.arrives (c : Client) (data : Bytes) : Client :=
  { c with querybuf := c.querybuf ++ data }

theorem Client.rest_arrives (hpos : c.qbPos ≤ c.querybuf.length) (data : Bytes) :
    (c.arrives data).rest = c.rest ++ data :=
  List.drop_append_of_le_length hpos

/-- The first byte of a request is not changed by what comes later. -/
theorem Client.TypeFits.arrives (h : c.TypeFits) (hpos : c.qbPos ≤ c.querybuf.length)
    (data : Bytes) : (c.arrives data).TypeFits := by
  have hsame : (c.arrives data).reqtype = c.reqtype := rfl
  rw [Client.TypeFits, Client.rest_arrives hpos, hsame]
  rw [Client.TypeFits] at h
  cases htype : c.reqtype with
  | unknown => exact trivial
  | multibulk =>
    rw [htype] at h
    have hr : c.rest ≠ [] := by
      intro hnil
      rw [hnil] at h
      cases h
    rw [List.head?_append_of_ne_nil _ hr]
    exact h
  | inline =>
    rw [htype] at h
    refine ⟨by simp [h.1], ?_⟩
    rw [List.head?_append_of_ne_nil _ h.1]
    exact h.2

theorem Client.Ok.arrives (hc : c.Ok env) (data : Bytes) :
    (c.arrives data).Ok env := by
  refine ⟨⟨?_, hc.bulklen, hc.slots, hc.unknown⟩, fun hn => ?_⟩
  · show c.qbPos ≤ (c.querybuf ++ data).length
    rw [List.length_append]
    exact hc.pos.trans (Nat.le_add_right _ _)
  · rcases hc.idle hn with hheld | ⟨hargv, htype⟩
    · exact .inl hheld
    · exact .inr ⟨hargv, htype.arrives hc.pos data⟩

/-- A read that stays below the limit goes to the parser. -/
theorem readQueryFromClient_eq {data : Bytes} (hmaster : st.client.flags.master = false)
    (hne : data ≠ []) (hlen : (st.client.querybuf ++ data).length ≤ env.clientMaxQuerybufLen) :
    readQueryFromClient env st (.bytes data)
      = processInputBuffer env { st with client := st.client.arrives data } := by
  rw [readQueryFromClient]
  case x => exact hne
  simp only [hmaster, Bool.false_eq_true, if_false, if_neg hlen.not_gt]
  rw [processInputBufferAndReplicate]
  simp only [hmaster, Bool.not_false, if_true]
  rfl

/-- A read runs the machine dry on what was left and what is new. -/
theorem readQueryFromClient_spec (hsettle : env.Settles) (hst : st.Between env) {data : Bytes}
    (hne : data ≠ []) (hlen : (st.client.rest ++ data).length ≤ env.clientMaxQuerybufLen) :
    ∃ st', readQueryFromClient env st (.bytes data) = some st' ∧ st'.Between env ∧
      Drains (Session.step env) (st.session, st.client.rest ++ data)
        (st'.session, st'.client.rest) := by
  have hrest : st.client.rest = st.client.querybuf := by
    rw [Client.rest, hst.pos, List.drop_zero]
  rw [readQueryFromClient_eq hst.master hne (by rwa [← hrest])]
  obtain ⟨st', hrun, ⟨hok, hlink, hdrains⟩, hpos⟩ := processInputBuffer_spec
    { st with client := st.client.arrives data } hsettle (hst.ok.arrives data)
  refine ⟨st', hrun, ⟨hok, hpos, hlink.1.trans hst.pendingRead, hlink.2.trans hst.master⟩, ?_⟩
  have hdrains := hdrains hst.pendingRead
  rw [Client.rest_arrives hst.ok.pos] at hdrains
  exact hdrains

/-- **A run of reads** feeds the machine the pieces. -/
theorem readAll_spec (hsettle : env.Settles) {chunks : List Bytes} (hst : st.Between env)
    (hne : ∀ data ∈ chunks, data ≠ [])
    (hlen : (st.client.rest ++ chunks.flatten).length ≤ env.clientMaxQuerybufLen) :
    ∃ st', readAll env st chunks = some st' ∧ st'.Between env ∧
      Feeds (Session.step env) (st.session, st.client.rest) chunks
        (st'.session, st'.client.rest) := by
  induction chunks generalizing st with
  | nil => exact ⟨st, rfl, hst, .nil _⟩
  | cons data chunks ih =>
    rw [List.flatten_cons, List.length_append, List.length_append] at hlen
    obtain ⟨st₁, hread, hst₁, hdrains⟩ := readQueryFromClient_spec hsettle hst
      (hne data List.mem_cons_self) (by rw [List.length_append]; omega)
    have hshrinks := length_le_of_steps hdrains.steps
    simp only [List.length_append] at hshrinks
    obtain ⟨st', hrun, hst', hfeeds⟩ := ih hst₁
      (fun data' hdata => hne data' (List.mem_cons_of_mem _ hdata))
      (by rw [List.length_append]; omega)
    refine ⟨st', ?_, hst', .cons hdrains hfeeds⟩
    rw [readAll, List.foldlM_cons, hread]
    exact hrun

/-- The session of a fresh client. -/
def Session.fresh (w : W) : Session W := ⟨w, .none, [], .start⟩

/-- A run of reads runs the machine dry on the whole stream. -/
theorem readAll_drains (hsettle : env.Settles) (w : W) {chunks : List Bytes}
    (hne : ∀ data ∈ chunks, data ≠ []) (hlen : chunks.flatten.length ≤ env.clientMaxQuerybufLen)
    (hfits : (Session.fresh w).fits env chunks.flatten) :
    ∃ st, readAll env (.fresh w) chunks = some st ∧
      Drains (Session.step env) (.fresh w, chunks.flatten) (st.session, st.client.rest) := by
  obtain ⟨st, hrun, -, hfeeds⟩ := readAll_spec hsettle (State.fresh_between w) hne hlen
  exact ⟨st, hrun, hfeeds.drains (monotone_step env) (Session.step_nil env _) hfits⟩

/-- **It does not matter how a stream is cut into reads.** -/
theorem readAll_congr (env : Env W) (w : W) {chunks chunks' : List Bytes} (hsettle : env.Settles)
    (hne : ∀ data ∈ chunks, data ≠ []) (hne' : ∀ data ∈ chunks', data ≠ [])
    (hstream : chunks.flatten = chunks'.flatten)
    (hlen : chunks.flatten.length ≤ env.clientMaxQuerybufLen)
    (hlines : ∀ k, LineOf env .start chunks.flatten k → k ≤ protoInlineMaxSize) :
    ∃ st st', readAll env (.fresh w) chunks = some st ∧ readAll env (.fresh w) chunks' = some st' ∧
      st.log = st'.log ∧ st.client.flags = st'.client.flags ∧ st.world = st'.world := by
  obtain ⟨st, hrun, hdrains⟩ := readAll_drains hsettle w hne hlen hlines
  rw [hstream] at hdrains hlen hlines
  obtain ⟨st', hrun', hdrains'⟩ := readAll_drains hsettle w hne' hlen hlines
  have heq := hdrains.unique hdrains'
  have hsession : st.session = st'.session := congrArg Prod.fst heq
  exact ⟨st, st', hrun, hrun', congrArg Session.log hsession, congrArg Session.flags hsession,
    congrArg Session.world hsession⟩

/-- A server without surprises: numbers are decimal, and commands change nothing. -/
def quietServer : Env Unit where
  string2ll s :=
    if s ≠ [] ∧ ∀ b ∈ s, 48 ≤ b ∧ b ≤ 57 then
      some (Nat.ofDigits 10 (s.map fun b => b.toNat - 48).reverse : ℕ)
    else none
  processCommand _ f _ := ((), ⟨true, f, false, false, false⟩)
  processGopherRequest _ _ := ()
  clientsArePaused _ := false
  luaTimedout _ := false
  gopherEnabled := false
  protoMaxBulkLen := 536870912
  clientMaxQuerybufLen := 1073741824

theorem quietServer_settles : quietServer.Settles := by
  intro w f argv
  refine ⟨rfl, fun _ => Bool.and_false _, fun h => ?_⟩
  cases h

/-- An inline request, a multibulk one and a protocol error, cut in two ways. -/
theorem readAll_congr_cut :
    ∃ st st',
      readAll quietServer (.fresh ())
          ["PING\r\n*1\r\n$1\r\nx\r\n*1\r\n#\r\n".toUTF8.toList] = some st ∧
      readAll quietServer (.fresh ())
          (["PING\r", "\n*", "1\r\n$1\r\nx", "\r\n*1\r\n#\r", "\n"].map (·.toUTF8.toList))
            = some st' ∧
      st.log = st'.log ∧ st.client.flags = st'.client.flags ∧ st.world = st'.world :=
  readAll_congr quietServer () quietServer_settles (by decide +kernel) (by decide +kernel)
    (by decide +kernel) (by decide +kernel)
    fun _ hline => hline.lt_length.le.trans (by decide +kernel)

/-! ### The states of the parser -/

/-- The states that a client can be in: it is created, something is read, the loop
of `processInputBuffer` takes a turn, the buffer is trimmed, a command that an I/O
thread parsed is executed, and meanwhile other parts of the server change the
flags of the client and the server itself, without reviving a client that is held
back. -/
inductive Reached (env : Env W) : State W → Prop
  | fresh (w : W) : Reached env (.fresh w)
  | arrives {st : State W} (data : Bytes) :
    Reached env st → Reached env { st with client := st.client.arrives data }
  | again {st st' : State W} :
    Reached env st → st.client.qbPos < st.client.querybuf.length →
    inputTurn env st = some (.again st') → Reached env st'
  | stop {st st' : State W} :
    Reached env st → st.client.qbPos < st.client.querybuf.length →
    inputTurn env st = some (.stop st') → Reached env st'
  | trim {st : State W} :
    Reached env st → Reached env { st with client := st.client.trim }
  | pending {st : State W} :
    Reached env st → st.client.flags.pendingCommand = true →
    Reached env (processCommandAndResetClient env { st with
      client := { st.client with
        flags := { st.client.flags with pendingRead := false, pendingCommand := false } } }).1
  | outside {st : State W} (w : W) (f : Flags) (log : List Event) :
    Reached env st → (st.client.flags.held = true → f.held = true) →
    Reached env { st with world := w, client := { st.client with flags := f }, log := log }

/-- The states of the client inside of `processMultibulkBuffer`. -/
inductive Inside (env : Env W) (c : Client) : Client → Prop
  | start : 0 < c.multibulklen → Inside env c c
  | count {c' : Client} :
    c.multibulklen = 0 → readMultibulkLen env c = some (.ready, c') → Inside env c c'
  | length {c' c'' : Client} :
    Inside env c c' → 0 < c'.multibulklen → readBulkLen env c' = some (.ready, c'') →
    Inside env c c''
  | bulk {c' c'' : Client} :
    Inside env c c' → 0 < c'.multibulklen → c'.bulklen ≠ -1 → readBulk c' = some (.ready, c'') →
    Inside env c c''

/-- The bounds hold after each line and each argument. -/
theorem Inside.bounds {c' : Client} {w : W} (h : Inside env c c') (hc : c.Ok env)
    (htype : c.reqtype = .multibulk) (hhalt : halted env w c.flags = false) :
    c'.Bounds env ∧ c'.flags = c.flags ∧
      (c'.argv ≠ [] → c'.argv.length + c'.multibulklen = c'.argvLen) := by
  induction h with
  | start hn => exact ⟨hc.toBounds, rfl, fun _ => (hc.slots hn).2⟩
  | @count c' hn hread =>
    rcases readMultibulkLen_spec [] hc hn htype hhalt with
      ⟨c₁, hread₁, hn₁, hc₁, hflags, -⟩ | ⟨r, hread₁, hdone, hparsed⟩
    · rw [hread] at hread₁
      obtain ⟨-, rfl⟩ := Prod.mk.inj (Option.some.inj hread₁)
      exact ⟨hc₁.toBounds, hflags, fun _ => (hc₁.slots hn₁).2⟩
    · obtain rfl : (.ready, c') = r := Option.some.inj (hread.symm.trans hread₁)
      cases hparsed with
      | ready _ _ hbounds hflags _ =>
        exact ⟨hbounds, hflags, fun hargv => absurd (hdone rfl).2 hargv⟩
  | @length c₁ c₂ _ hn hread ih =>
    obtain ⟨hbounds, hflags, hslots⟩ := ih
    by_cases hb : c₁.bulklen = -1
    · have hok : c₁.Ok env := ⟨hbounds, fun h0 => absurd h0 hn.ne'⟩
      rcases readBulkLen_spec (w := w) [] hok hn hb (by rw [hflags]; exact hhalt) with
        ⟨c', hread', -, hc', -, hn', hflags'⟩ | ⟨hread', -⟩ | ⟨e, hread', -⟩
      · rw [hread] at hread'
        obtain ⟨-, rfl⟩ := Prod.mk.inj (Option.some.inj hread')
        exact ⟨hc'.toBounds, hflags'.trans hflags, fun _ => (hc'.slots (by omega)).2⟩
      · rw [hread] at hread'
        cases hread'
      · rw [hread] at hread'
        cases hread'
    · rw [readBulkLen, if_pos hb] at hread
      obtain ⟨-, rfl⟩ := Prod.mk.inj (Option.some.inj hread)
      exact ⟨hbounds, hflags, hslots⟩
  | @bulk c₁ c₂ _ hn hb hread ih =>
    obtain ⟨hbounds, hflags, -⟩ := ih
    have hok : c₁.Ok env := ⟨hbounds, fun h0 => absurd h0 hn.ne'⟩
    rcases readBulk_spec (w := w) [] hok hn hb (by rw [hflags]; exact hhalt) with
      ⟨hread', -⟩ | ⟨c', hread', -, -, hflags', hbounds', hslots', -⟩
    · rw [hread] at hread'
      cases hread'
    · rw [hread] at hread'
      obtain ⟨-, rfl⟩ := Prod.mk.inj (Option.some.inj hread')
      exact ⟨hbounds', hflags'.trans hflags, fun _ => hslots'⟩

/-- **The invariant holds in every state** that a client can be in. -/
theorem Reached.ok (hsettle : env.Settles) (h : Reached env st) : st.client.Ok env := by
  induction h with
  | fresh w => exact freshClient_ok env
  | arrives data _ ih => exact ih.arrives data
  | @again st st' _ hlt hrun ih =>
    obtain ⟨t, ht, hturn⟩ := inputTurn_spec hsettle ih (Client.rest_ne_nil hlt.not_ge)
    obtain rfl : .again st' = t := Option.some.inj (hrun.symm.trans ht)
    cases hturn with
    | again hok => exact hok
  | @stop st st' _ hlt hrun ih =>
    obtain ⟨t, ht, hturn⟩ := inputTurn_spec hsettle ih (Client.rest_ne_nil hlt.not_ge)
    obtain rfl : .stop st' = t := Option.some.inj (hrun.symm.trans ht)
    cases hturn with
    | stop hok => exact hok
  | trim _ ih => exact ih.trim
  | pending _ _ ih =>
    refine (Client.afterCommand_spec (hsettle _ _ _) ?_).1
    exact ⟨ih.pos, ih.bulklen, ih.slots, ih.unknown⟩
  | outside w f log _ hheld ih =>
    refine ⟨⟨ih.pos, ih.bulklen, ih.slots, ih.unknown⟩, fun hn => ?_⟩
    rcases ih.idle hn with hf | hidle
    · exact .inl (hheld hf)
    · exact .inr hidle

theorem Reached.inputLoop {fuel : ℕ} {st' : State W} (h : Reached env st)
    (hrun : inputLoop env fuel st = some (st', true)) : Reached env st' := by
  have hend := inputLoop_keeps (J := fun x => x.2 = true →
    Reached env x.1) (fun hst _ => hst) .again
    (fun hst hlt ht _ => .stop hst hlt ht) (fun _ _ _ hgone => nomatch hgone) h hrun
  exact hend rfl

theorem Reached.processInputBuffer (hsettle : env.Settles) (h : Reached env st) :
    ∃ st', processInputBuffer env st = some st' ∧ Reached env st' ∧
      st.client.flags.SameLink st'.client.flags := by
  obtain ⟨st', hloop, hok⟩ := inputLoop_spec hsettle (h.ok hsettle) le_rfl
  rw [Client.length_rest] at hloop
  refine ⟨{ st' with client := st'.client.trim }, ?_, (h.inputLoop hloop).trim, ?_⟩
  · rw [Networking.processInputBuffer, hloop]
    rfl
  · show st.client.flags.SameLink st'.client.trim.flags
    rw [Client.trim_spec hok.ok.pos]
    exact hok.link

/-- Closing a client is one of the things that can happen to it. -/
theorem Reached.freeClientAsync (h : Reached env st) :
    Reached env { st with client := freeClientAsync st.client } :=
  h.outside st.world { st.client.flags with closeAsap := true } st.log
    fun _ => by simp [Flags.held]

/-- A read is one of the things that can happen to a client. -/
theorem Reached.readQueryFromClient (hsettle : env.Settles) (h : Reached env st)
    (hmaster : st.client.flags.master = false) (r : ReadResult) :
    ∃ st', readQueryFromClient env st r = some st' ∧ Reached env st' ∧
      st'.client.flags.master = false := by
  cases r with
  | eagain => exact ⟨st, rfl, h, hmaster⟩
  | error => exact ⟨_, rfl, h.freeClientAsync, hmaster⟩
  | bytes data =>
    by_cases hne : data = []
    · subst hne
      exact ⟨_, rfl, h.freeClientAsync, hmaster⟩
    by_cases hlen : (st.client.querybuf ++ data).length ≤ env.clientMaxQuerybufLen
    · rw [readQueryFromClient_eq hmaster hne hlen]
      obtain ⟨st', hrun, hst', hlink⟩ := (h.arrives data).processInputBuffer hsettle
      exact ⟨st', hrun, hst', hlink.2.trans hmaster⟩
    · refine ⟨_, ?_, (h.arrives data).freeClientAsync, hmaster⟩
      rw [Networking.readQueryFromClient]
      case x => exact hne
      simp only [hmaster, Bool.false_eq_true, if_false, if_pos (not_le.mp hlen)]
      rfl

/-- `handleClientsWithPendingReadsUsingThreads` is one of the things that can happen
to a client. -/
theorem Reached.handlePendingRead (hsettle : env.Settles) (h : Reached env st)
    (hmaster : st.client.flags.master = false) :
    ∃ st', handlePendingRead env st = some st' ∧ Reached env st' ∧
      st'.client.flags.master = false := by
  -- In both cases the loop goes on with a client that can be reached.
  have hloop : ∀ {st₁ : State W}, Reached env st₁ → st₁.client.flags.master = false →
      ∃ st', processInputBufferAndReplicate env st₁ = some st' ∧ Reached env st' ∧
        st'.client.flags.master = false := by
    intro st₁ h₁ hmaster₁
    obtain ⟨st', hrun, hst', hlink⟩ := h₁.processInputBuffer hsettle
    refine ⟨st', ?_, hst', hlink.2.trans hmaster₁⟩
    rw [processInputBufferAndReplicate, hmaster₁]
    exact hrun
  rw [Networking.handlePendingRead]
  by_cases hpending : st.client.flags.pendingCommand = true
  · have hafter := h.pending hpending
    have halive := (hsettle st.world
      { st.client.flags with pendingRead := false, pendingCommand := false } st.client.argv).alive
    simp only [if_pos hpending]
    rw [if_neg (by simp [processCommandAndResetClient, halive])]
    refine hloop hafter ?_
    have hok := (h.ok hsettle).toBounds
    have hbounds : Client.Bounds env { st.client with
        flags := { st.client.flags with pendingRead := false, pendingCommand := false } } :=
      ⟨hok.pos, hok.bulklen, hok.slots, hok.unknown⟩
    rw [processCommandAndResetClient, (Client.afterCommand_spec (hsettle _ _ _) hbounds).2.2.2]
    split_ifs
    · exact hmaster
    · exact hmaster
  · simp only [if_neg hpending]
    exact hloop (h.outside st.world { st.client.flags with pendingRead := false } st.log id) hmaster

/-- What the event loop does with a client: a read, by the main thread or by an I/O
thread, `postponeClientRead`, and the work after the I/O threads are done. -/
inductive IoEvent where
  | read (r : ReadResult)
  | postpone
  | pending

def ioStep (env : Env W) (st : State W) : IoEvent → Option (State W)
  | .read r => readQueryFromClient env st r
  | .postpone =>
    some { st with client := { st.client with flags := { st.client.flags with
      pendingRead := true } } }
  | .pending => handlePendingRead env st

theorem Reached.ioStep (hsettle : env.Settles) (h : Reached env st)
    (hmaster : st.client.flags.master = false) (e : IoEvent) :
    ∃ st', ioStep env st e = some st' ∧ Reached env st' ∧ st'.client.flags.master = false := by
  cases e with
  | read r => exact h.readQueryFromClient hsettle hmaster r
  | postpone =>
    exact ⟨_, rfl, h.outside st.world { st.client.flags with pendingRead := true } st.log
      id, hmaster⟩
  | pending => exact h.handlePendingRead hsettle hmaster

theorem Reached.ioRun (hsettle : env.Settles) (events : List IoEvent) (h : Reached env st)
    (hmaster : st.client.flags.master = false) :
    ∃ st', events.foldlM (Networking.ioStep env) st = some st' ∧ Reached env st' := by
  induction events generalizing st with
  | nil => exact ⟨st, rfl, h⟩
  | cons e events ih =>
    obtain ⟨st₁, hstep, h₁, hmaster₁⟩ := h.ioStep hsettle hmaster e
    obtain ⟨st', hrun, h'⟩ := ih h₁ hmaster₁
    refine ⟨st', ?_, h'⟩
    rw [List.foldlM_cons, hstep]
    exact hrun

/-- **The parser never leaves its bounds.**  In every state that a client can be in,
also after each line and each argument inside of `processMultibulkBuffer`, the
bounds hold; a turn of the loop fails no assertion and stays within the buffer and
`argv`, and consumes something if another turn follows, so that `processInputBuffer`
returns.  Whatever is read, and whoever reads it, leads to such a state. -/
theorem parser_in_bounds (hsettle : env.Settles) :
    (∀ st, Reached env st →
      st.client.Bounds env ∧
      (∀ c', st.client.qbPos < st.client.querybuf.length →
        halted env st.world st.client.flags = false →
        (st.client.setReqtype st.client.rest).reqtype = .multibulk →
        Inside env (st.client.setReqtype st.client.rest) c' →
        c'.Bounds env ∧ (c'.argv ≠ [] → c'.argv.length + c'.multibulklen = c'.argvLen)) ∧
      (st.client.qbPos < st.client.querybuf.length → ∃ t, inputTurn env st = some t ∧
        ∀ st', t = .again st' → st'.client.rest.length < st.client.rest.length) ∧
      (processInputBuffer env st).isSome) ∧
    ∀ (w : W) (events : List IoEvent), ∃ st', events.foldlM (ioStep env) (.fresh w) = some st' ∧
      Reached env st' := by
  refine ⟨fun st h => ⟨(h.ok hsettle).toBounds, ?_, ?_, ?_⟩, fun w events => ?_⟩
  · intro c' hlt hhalt htype hinside
    obtain ⟨hok, -, hflags, -⟩ :=
      (h.ok hsettle).setReqtype hhalt (Client.rest_ne_nil hlt.not_ge)
    obtain ⟨hbounds, -, hslots⟩ := hinside.bounds hok htype (by rw [hflags]; exact hhalt)
    exact ⟨hbounds, hslots⟩
  · intro hlt
    obtain ⟨t, ht, hturn⟩ := inputTurn_spec hsettle (h.ok hsettle) (Client.rest_ne_nil hlt.not_ge)
    refine ⟨t, ht, ?_⟩
    rintro st' rfl
    cases hturn with
    | again _ _ hshorter => exact hshorter
  · obtain ⟨st', hrun, -⟩ := h.processInputBuffer hsettle
    rw [hrun]
    rfl
  · exact (Reached.fresh w).ioRun hsettle events rfl

/-- A request in two reads, the second one by an I/O thread. -/
theorem parser_in_bounds_threaded :
    ∃ st', [.read (.bytes "*1\r\n$4\r\nPI".toUTF8.toList), .postpone,
        .read (.bytes "NG\r\n*".toUTF8.toList), .pending].foldlM (ioStep quietServer) (.fresh ())
      = some st' ∧ Reached quietServer st' :=
  (parser_in_bounds quietServer_settles).2 () _

end Networking
