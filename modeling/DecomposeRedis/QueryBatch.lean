/-
Reads for many clients at once.

`handleClientsWithPendingReadsUsingThreads` lets the I/O threads read and parse for all
clients in `clients_pending_read`, and goes through the list once more to execute what
they parsed (`threadedReads`).  What a thread does depends on its client only
(`threadJob_at`), so the passes over the list can be taken apart and put
together client by client (`Jobs.foldlM_phases`), and for each client `threadedRead_eq`
applies: the batch does what reads by the main thread do (`threadedReads_eq`), and so
does a whole run (`threaded_reads_same`).
-/
import DecomposeRedis.QueryThreads
import DecomposeRedis.Jobs

namespace Networking

open Sds

variable {W : Type}

/-! ### What an I/O thread does does not depend on the server -/

/-- Clients are not paused, and a Gopher request, which asks for a value, leaves the
server as it is. -/
structure Env.Undisturbed (env : Env W) : Prop where
  running : ∀ w, env.clientsArePaused w = false
  gopher : ∀ w argv, env.processGopherRequest w argv = w

section World

variable {env : Env W} {st s : State W} {c : Client}

/-- The same client, with the server in another state. -/
def State.at (st : State W) (w : W) : State W := { st with world := w }

def Turn.at (w : W) : Turn W → Turn W
  | .again st => .again (st.at w)
  | .stop st => .stop (st.at w)
  | .gone st => .gone (st.at w)

theorem halted_at (henv : env.Undisturbed) {f : Flags} (hmaster : f.master = false) (w w' : W) :
    halted env w f = halted env w' f := by
  rw [halted, halted, henv.running, henv.running, hmaster, Bool.and_false, Bool.and_false,
    Bool.and_false]

theorem runRequest_at (h : st.client.flags.pendingRead = true ∨ ∃ s, runRequest env st = .stop s)
    (w : W) : runRequest env (st.at w) = (runRequest env st).at w := by
  by_cases hnil : st.client.argv = []
  · rw [runRequest_nil hnil, runRequest_nil (by exact hnil)]
    rfl
  by_cases hread : st.client.flags.pendingRead = true
  · rw [runRequest_pending hnil hread, runRequest_pending (by exact hnil) (by exact hread)]
    rfl
  · -- a request that is executed does not stop the loop
    rcases h with htrue | ⟨s, hstop⟩
    · exact absurd htrue hread
    · rw [runRequest_execute hnil (by simpa using hread)] at hstop
      split at hstop <;> cases hstop

theorem serveGopher_at (henv : env.Undisturbed) (st : State W) (w : W) :
    serveGopher env (st.at w) = (serveGopher env st).at w := by
  simp only [serveGopher, State.at, henv.gopher]

/-- **A turn** that does not execute a command does not depend on the server. -/
theorem inputTurn_at (henv : env.Undisturbed) (hpos : st.client.qbPos ≤ st.client.querybuf.length)
    (hbulk : -1 ≤ st.client.bulklen) (hmaster : st.client.flags.master = false)
    (h : st.client.flags.pendingRead = true ∨ ∃ s, inputTurn env st = some (.stop s)) (w : W) :
    inputTurn env (st.at w) = (inputTurn env st).map (·.at w) := by
  have hhalted : halted env (st.at w).world (st.at w).client.flags
      = halted env st.world st.client.flags := halted_at henv hmaster _ _
  have hsim := (Client.Sim.refl hpos hbulk).setReqtype
  have hflags := (st.client.setReqtype_flags st.client.rest).1
  rw [inputTurn] at h
  rw [inputTurn, inputTurn, hhalted]
  by_cases hhalt : halted env st.world st.client.flags
  · rw [if_pos hhalt, if_pos hhalt]
    rfl
  have hrest : (st.at w).client.unparsed = some st.client.rest := Client.unparsed_eq hpos
  have hclient : (st.at w).client = st.client := rfl
  rw [if_neg hhalt, Client.unparsed_eq hpos] at h
  rw [if_neg hhalt, if_neg hhalt, Client.unparsed_eq hpos, hrest, hclient]
  simp only [Option.bind_some] at h ⊢
  generalize st.client.setReqtype st.client.rest = c at h hsim hflags ⊢
  have hread : ∀ {c₁ : Client} {b : Bool}, ParseSim b c 1 (some (.ready, c₁)) (some (.ready, c₁)) →
      c₁.flags.pendingRead = st.client.flags.pendingRead := by
    intro c₁ b hparse
    cases hparse with
    | ready _ hf _ => rw [(Prod.mk.inj hf).1, hflags]
  generalize c.reqtype = type at h ⊢
  rcases type with _ | _ | _
  · rfl
  · have hparse := processInlineBuffer_sim hsim
    generalize processInlineBuffer c = x at h hparse ⊢
    rcases x with _ | ⟨_ | _ | _, c₁⟩
    · rfl
    · simp only [Option.map_some, Option.some.injEq] at h ⊢
      by_cases hgopher : isGopher env c₁.argv
      · rw [if_pos hgopher, if_pos hgopher]
        exact congrArg Turn.stop (serveGopher_at henv ⟨st.world, c₁, st.log⟩ w)
      · rw [if_neg hgopher] at h
        rw [if_neg hgopher, if_neg hgopher]
        exact runRequest_at (h.imp_left (hread hparse).trans) w
    · rfl
    · rfl
  · have hparse := processMultibulkBuffer_sim env hsim
    generalize processMultibulkBuffer env c = x at h hparse ⊢
    rcases x with _ | ⟨_ | _ | _, c₁⟩
    · rfl
    · simp only [Option.map_some, Option.some.injEq] at h ⊢
      exact runRequest_at (h.imp_left (hread hparse).trans) w
    · rfl
    · rfl

/-- What every client satisfies that is not the link to a master. -/
structure Client.Sound (c : Client) : Prop where
  pos : c.qbPos ≤ c.querybuf.length
  bulklen : -1 ≤ c.bulklen
  master : c.flags.master = false

theorem State.Sim.sound {b : Bool} {st' : State W} (h : st.Sim b st')
    (hmaster : st.client.flags.master = false) : st.client.Sound :=
  ⟨h.client.pos, h.client.bulklen, hmaster⟩

theorem Client.Sound.sim (h : st.client.Sound) (hread : st.client.flags.pendingRead = true) :
    st.Sim true st :=
  ⟨rfl, rfl, hread ▸ .refl h.pos h.bulklen⟩

theorem Client.Sound.trim (h : c.Sound) : c.trim.Sound := by
  rw [(Client.Sim.refl h.pos h.bulklen).trim]
  exact ⟨Nat.zero_le _, h.bulklen, h.master⟩

/-- How a turn of an I/O thread ends. -/
theorem inputTurn_marked (h : st.client.Sound) (hread : st.client.flags.pendingRead = true) :
    inputTurn env st = none ∨ (∃ s : State W, inputTurn env st = some (.stop s) ∧ s.client.Sound)
      ∨ ∃ s : State W, inputTurn env st = some (.again s) ∧ s.client.Sound
        ∧ s.client.flags.pendingRead = true := by
  rcases (inputTurn_sim env (h.sim hread)).cases_left with
    hnone | ⟨s, s', hstop, hsim, hleaves⟩ | ⟨s, s', hrun, hsim, hreq⟩
  · exact .inl hnone
  · exact .inr (.inl ⟨s, hstop, hsim.sound (hleaves.link.2.trans h.master)⟩)
  · rw [hrun]
    have hread' : s.client.flags.pendingRead = true := by rw [hreq.flags, hread]
    have hsound := hsim.sound (by rw [hreq.flags, h.master])
    by_cases hnil : s.client.argv = []
    · rw [runRequest_nil hnil]
      exact .inr (.inr ⟨_, rfl, ⟨hsound.pos, le_rfl, hsound.master⟩, hread'⟩)
    · rw [runRequest_pending hnil hread']
      exact .inr (.inl ⟨_, rfl, ⟨hsound.pos, hsound.bulklen, hsound.master⟩⟩)

/-- **The loop of an I/O thread** does not depend on the server. -/
theorem inputLoop_at (henv : env.Undisturbed) (h : st.client.Sound)
    (hread : st.client.flags.pendingRead = true) (fuel : ℕ) (w : W) :
    inputLoop env fuel (st.at w) = (inputLoop env fuel st).map fun x => (x.1.at w, x.2) := by
  induction fuel generalizing st with
  | zero =>
    rw [inputLoop, inputLoop]
    show (if st.client.querybuf.length ≤ st.client.qbPos then _ else _) = _
    split <;> rfl
  | succ fuel ih =>
    rw [inputLoop, inputLoop]
    show (if st.client.querybuf.length ≤ st.client.qbPos then _ else _) = _
    by_cases hend : st.client.querybuf.length ≤ st.client.qbPos
    · rw [if_pos hend, if_pos hend]
      rfl
    rw [if_neg hend, if_neg hend]
    simp only [inputTurn_at henv h.pos h.bulklen h.master (.inl hread)]
    rcases inputTurn_marked h hread with hnone | ⟨s, hstop, -⟩ | ⟨s, hagain, hs, hread'⟩
    · rw [hnone]
      rfl
    · rw [hstop]
      rfl
    · rw [hagain]
      exact ih hs hread'

theorem inputLoop_sound (h : st.client.Sound) (hread : st.client.flags.pendingRead = true)
    {fuel : ℕ} {x : State W × Bool} (hrun : inputLoop env fuel st = some x) : x.1.client.Sound := by
  have hturn : ∀ {s : State W} {t}, s.client.Sound ∧ s.client.flags.pendingRead = true →
      inputTurn env s = some t →
      t.state.client.Sound ∧ (t = .again t.state → t.state.client.flags.pendingRead = true) := by
    intro s t hs ht
    rcases inputTurn_marked hs.1 hs.2 with hnone | ⟨s', hstop, hs'⟩ | ⟨s', hagain, hs', hread'⟩
    · cases hnone.symm.trans ht
    · obtain rfl := Option.some.inj (hstop.symm.trans ht)
      exact ⟨hs', nofun⟩
    · obtain rfl := Option.some.inj (hagain.symm.trans ht)
      exact ⟨hs', fun _ => hread'⟩
  exact inputLoop_keeps (J := fun x => x.1.client.Sound) And.left (fun hs _ ht =>
    ⟨(hturn hs ht).1, (hturn hs ht).2 rfl⟩)
    (fun hs _ ht => (hturn hs ht).1) (fun hs _ ht => (hturn hs ht).1) ⟨h, hread⟩ hrun

theorem processInputBuffer_at (henv : env.Undisturbed) (h : st.client.Sound)
    (hread : st.client.flags.pendingRead = true) (w : W) :
    processInputBuffer env (st.at w) = (processInputBuffer env st).map (·.at w) := by
  rw [processInputBuffer, processInputBuffer, inputLoop_at henv h hread, Option.map_map,
    Option.map_map]
  congr 1
  funext x
  show (if x.2 = true then _ else _) = State.at (if x.2 = true then _ else _) w
  split <;> rfl

theorem processInputBuffer_sound (h : st.client.Sound) (hread : st.client.flags.pendingRead = true)
    (hrun : processInputBuffer env st = some s) : s.client.Sound := by
  obtain ⟨x, hloop, rfl⟩ := Option.map_eq_some_iff.mp hrun
  have hx := inputLoop_sound h hread hloop
  split
  · exact hx.trim
  · exact hx

theorem Client.Sound.arrives (h : c.Sound) (data : Bytes) : (c.arrives data).Sound := by
  refine ⟨?_, h.bulklen, h.master⟩
  show c.qbPos ≤ (c.querybuf ++ data).length
  rw [List.length_append]
  exact h.pos.trans (Nat.le_add_right _ _)

/-- **What an I/O thread does** for its client. -/
def threadJob (env : Env W) (r : ReadResult) (st : State W) : Option (State W) :=
  readQueryFromClient env (st.marked true) r

theorem threadJob_at (henv : env.Undisturbed) (h : st.client.Sound) (r : ReadResult) (w : W) :
    threadJob env r (st.at w) = (threadJob env r st).map (·.at w) := by
  have hmaster : ((st.at w).marked true).client.flags.master = false := h.master
  rw [threadJob, threadJob, readQueryFromClient_receive hmaster,
    readQueryFromClient_receive (by exact h.master)]
  show State.receive env _ (arrival env st.client.querybuf r)
    = (State.receive env _ (arrival env st.client.querybuf r)).map _
  cases arrival env st.client.querybuf r with
  | nothing => rfl
  | close data => rfl
  | parse data =>
    have hsound := h.arrives data
    have hmarked : ((st.marked true).arrives data).client.Sound :=
      ⟨hsound.pos, hsound.bulklen, hsound.master⟩
    exact processInputBuffer_at henv hmarked rfl w

theorem threadJob_sound (h : st.client.Sound) {r : ReadResult}
    (hrun : threadJob env r st = some s) : s.client.Sound := by
  rw [threadJob, readQueryFromClient_receive (by exact h.master)] at hrun
  generalize arrival env (st.marked true).client.querybuf r = a at hrun
  cases a with
  | nothing =>
    obtain rfl := Option.some.inj hrun
    exact ⟨h.pos, h.bulklen, h.master⟩
  | close data =>
    obtain rfl := Option.some.inj hrun
    have hsound := h.arrives data
    exact ⟨hsound.pos, hsound.bulklen, hsound.master⟩
  | parse data =>
    have hsound := h.arrives data
    have hmarked : ((st.marked true).arrives data).client.Sound :=
      ⟨hsound.pos, hsound.bulklen, hsound.master⟩
    exact processInputBuffer_sound hmarked rfl hrun

theorem State.Idle.sound (h : st.Idle env) : st.client.Sound := by
  refine ⟨?_, h.bulklen, h.master⟩
  rw [h.pos]
  exact Nat.zero_le _

/-- The main thread leaves an idle client. -/
theorem processInputBufferAndReplicate_idle (hspares : env.Spares) (h : st.client.Sound)
    (hread : st.client.flags.pendingRead = false) (hpc : st.client.flags.pendingCommand = false)
    (hrun : processInputBufferAndReplicate env st = some s) : s.Idle env := by
  rw [processInputBufferAndReplicate_eq h.master] at hrun
  have hsim : st.Sim false st := ⟨rfl, rfl, hread ▸ .refl h.pos h.bulklen⟩
  rcases processInputBuffer_idle hspares hsim h.master hread hpc le_rfl with
    ⟨-, hnone⟩ | ⟨u, -, hu, hidle⟩
  · cases hnone.symm.trans hrun
  · obtain rfl := Option.some.inj (hu.symm.trans hrun)
    exact hidle

theorem Client.Sound.afterCommand (h : c.Sound) (o : Outcome) : (c.afterCommand o).Sound := by
  rw [Client.afterCommand_eq]
  split
  · exact ⟨h.pos, le_rfl, h.master⟩
  · exact ⟨h.pos, h.bulklen, h.master⟩

theorem handlePendingRead_idle (hspares : env.Spares) (h : st.client.Sound)
    (hrun : handlePendingRead env st = some s) : s.Idle env := by
  by_cases hp : st.client.flags.pendingCommand = true
  · -- the command does not set the flag again
    obtain ⟨st₁, rfl, hp₁⟩ : ∃ st₁ : State W, st = st₁.withPending
        ∧ st₁.client.flags.pendingCommand = false := by
      refine ⟨{ st with client := { st.client with
        flags := { st.client.flags with pendingCommand := false } } }, ?_, rfl⟩
      simp only [State.withPending, ← hp]
    have h₁ : (st₁.marked false).client.Sound := ⟨h.pos, h.bulklen, h.master⟩
    rw [handlePendingRead_withPending hp₁] at hrun
    split at hrun
    · cases hrun
    · obtain ⟨-, hlink, hpc⟩ := (st₁.marked false).client.afterCommand_rest (env.processCommand
        (st₁.marked false).world (st₁.marked false).client.flags (st₁.marked false).client.argv).2
      exact processInputBufferAndReplicate_idle hspares (h₁.afterCommand _) hlink.1
        (hpc (hspares.pending _ _ _ hp₁)) hrun
  · rw [handlePendingRead_eq (by simpa using hp)] at hrun
    have h₁ : (st.marked false).client.Sound := ⟨h.pos, h.bulklen, h.master⟩
    exact processInputBufferAndReplicate_idle hspares h₁ rfl (eq_false_of_ne_true hp) hrun

/-- An idle client stays idle when the server changes. -/
theorem State.Idle.at (henv : env.Undisturbed) (h : st.Idle env) (w : W) : (st.at w).Idle env where
  pos := h.pos
  bulklen := h.bulklen
  master := h.master
  pendingRead := h.pendingRead
  pendingCommand := h.pendingCommand
  stalled := by
    rcases h.stalled with hnil | ⟨s, hturn, htrim⟩
    · exact .inl hnil
    · refine .inr ⟨s.at w, ?_, ?_⟩
      · rw [inputTurn_at henv h.sound.pos h.bulklen h.master (.inr ⟨s, hturn⟩), hturn]
        rfl
      · rw [← htrim]
        rfl

end World

/-! ### The clients of a server -/

/-- The server with all its clients, and what happened for each of them. -/
structure Server (W : Type) where
  world : W
  client : ℕ → Client
  log : ℕ → List Event

/-- The server as a function sees it that works on one client. -/
def Server.focus (s : Server W) (i : ℕ) : State W := ⟨s.world, s.client i, s.log i⟩

def Server.update (s : Server W) (i : ℕ) (st : State W) : Server W :=
  ⟨st.world, Function.update s.client i st.client, Function.update s.log i st.log⟩

/-- A function is called for client `i`. -/
def Server.on (s : Server W) (i : ℕ) (f : State W → Option (State W)) : Option (Server W) :=
  (f (s.focus i)).map (s.update i)

section Clients

variable {env : Env W} {s : Server W} {i j : ℕ} {f g : State W → Option (State W)}

theorem Server.focus_update_self (s : Server W) (i : ℕ) (st : State W) :
    (s.update i st).focus i = st := by
  simp only [Server.focus, Server.update, Function.update_self]

theorem Server.focus_update_of_ne (hij : j ≠ i) (st : State W) :
    (s.update i st).focus j = (s.focus j).at st.world := by
  simp only [Server.focus, Server.update, Function.update_of_ne hij, State.at]

theorem Server.update_update (s : Server W) (i : ℕ) (st st' : State W) :
    (s.update i st).update i st' = s.update i st' := by
  simp only [Server.update, Function.update_idem]

theorem Server.on_bind (s : Server W) (i : ℕ) (f g : State W → Option (State W)) :
    (s.on i f).bind (·.on i g) = s.on i fun st => (f st).bind g := by
  rw [Server.on, Server.on]
  rcases f (s.focus i) with _ | st
  · rfl
  · simp only [Option.map_some, Option.bind_some, Server.on, Server.focus_update_self]
    rcases g st with _ | st'
    · rfl
    · simp only [Option.map_some, Server.update_update]

/-- Calls for different clients commute, if one of them does not depend on the
server. -/
theorem Server.on_comm (hij : i ≠ j)
    (hg : ∀ w, g ((s.focus j).at w) = (g (s.focus j)).map (·.at w)) :
    (s.on i f).bind (·.on j g) = (s.on j g).bind (·.on i f) := by
  have hworld : ∀ st, g (s.focus j) = some st → st.world = s.world := by
    intro st hst
    have hself := hg s.world
    rw [show (s.focus j).at s.world = s.focus j from rfl, hst] at hself
    exact congrArg State.world (Option.some.inj hself)
  rw [Server.on, Server.on]
  rcases hf : f (s.focus i) with _ | st
  · rcases hgj : g (s.focus j) with _ | st'
    · rfl
    · simp only [Option.map_none, Option.bind_none, Option.map_some, Option.bind_some, Server.on,
        Server.focus_update_of_ne hij]
      rw [hworld st' hgj, show (s.focus i).at s.world = s.focus i from rfl, hf]
      rfl
  · simp only [Option.map_some, Option.bind_some, Server.on, Server.focus_update_of_ne hij.symm, hg]
    rcases hgj : g (s.focus j) with _ | st'
    · rfl
    · simp only [Option.map_some, Option.bind_some, Server.focus_update_of_ne hij]
      rw [hworld st' hgj, show (s.focus i).at s.world = s.focus i from rfl, hf]
      simp only [Option.map_some, Server.update, State.at, Function.update_comm hij]

/-- Every client is idle. -/
def Server.Idle (env : Env W) (s : Server W) : Prop := ∀ i, (s.focus i).Idle env

/-- Every client is sound. -/
def Server.Sound (s : Server W) : Prop := ∀ i, (s.focus i).client.Sound

theorem Server.Idle.sound (h : s.Idle env) : s.Sound := fun i => (h i).sound

theorem Server.Sound.update (h : s.Sound) {st : State W} (hst : st.client.Sound) :
    (s.update i st).Sound := by
  intro j
  by_cases hij : j = i
  · subst hij
    rw [Server.focus_update_self]
    exact hst
  · rw [Server.focus_update_of_ne hij]
    exact h j

theorem Server.Idle.update (henv : env.Undisturbed) (h : s.Idle env) {st : State W}
    (hst : st.Idle env) :
    (s.update i st).Idle env := by
  intro j
  by_cases hij : j = i
  · subst hij
    rw [Server.focus_update_self]
    exact hst
  · rw [Server.focus_update_of_ne hij]
    exact (h j).at henv st.world

/-! ### A batch of reads -/

/-- The clients of `clients_pending_read`, each of them with what its read is going to
return, and the order in which the I/O threads get to them. -/
structure Batch where
  pending : List (ℕ × ReadResult)
  schedule : List (ℕ × ReadResult)
  nodup : (pending.map Prod.fst).Nodup
  perm : schedule.Perm pending

/-- With `n` threads, that work one after the other. -/
def Batch.dealt (n : ℕ) (hn : 0 < n) (pending : List (ℕ × ReadResult))
    (hnodup : (pending.map Prod.fst).Nodup) : Batch :=
  ⟨pending, (List.range n).flatMap (Jobs.dealt n pending), hnodup,
    Jobs.flatMap_dealt_perm hn pending⟩

/-- `postponeClientRead`, for a client that can be left to the I/O threads. -/
def postponeClientRead (s : Server W) (x : ℕ × ReadResult) : Option (Server W) :=
  s.on x.1 fun st => some (st.marked true)

/-- `IOThreadMain`: one read. -/
def ioThreadRead (env : Env W) (s : Server W) (x : ℕ × ReadResult) : Option (Server W) :=
  s.on x.1 (readQueryFromClient env · x.2)

/-- The second loop of `handleClientsWithPendingReadsUsingThreads`: one client. -/
def completeRead (env : Env W) (s : Server W) (x : ℕ × ReadResult) : Option (Server W) :=
  s.on x.1 (handlePendingRead env)

/-- The clients are postponed, and `handleClientsWithPendingReadsUsingThreads` serves
them. -/
def threadedReads (env : Env W) (b : Batch) (s : Server W) : Option (Server W) :=
  ((b.pending.foldlM postponeClientRead s).bind (b.schedule.foldlM (ioThreadRead env))).bind
    (b.pending.foldlM (completeRead env))

/-- The main thread reads for a client. -/
def directRead (env : Env W) (s : Server W) (x : ℕ × ReadResult) : Option (Server W) :=
  s.on x.1 (readQueryFromClient env · x.2)

/-- The main thread reads for the clients. -/
def directReads (env : Env W) (b : Batch) (s : Server W) : Option (Server W) :=
  b.pending.foldlM (directRead env) s

theorem Server.on_eq_some {s' : Server W} (h : s.on i f = some s') :
    ∃ st, f (s.focus i) = some st ∧ s' = s.update i st := by
  obtain ⟨st, hst, rfl⟩ := Option.map_eq_some_iff.mp h
  exact ⟨st, hst, rfl⟩

/-- A thread that marks its client itself. -/
def markedRead (env : Env W) (s : Server W) (x : ℕ × ReadResult) : Option (Server W) :=
  s.on x.1 (threadJob env x.2)

theorem markedRead_keeps : Jobs.Keeps Server.Sound (markedRead env) := by
  intro s x s' hs hrun
  obtain ⟨st, hst, rfl⟩ := Server.on_eq_some hrun
  exact hs.update (threadJob_sound (hs x.1) hst)

theorem completeRead_keeps (hspares : env.Spares) : Jobs.Keeps Server.Sound (completeRead env) := by
  intro s x s' hs hrun
  obtain ⟨st, hst, rfl⟩ := Server.on_eq_some hrun
  exact hs.update (handlePendingRead_idle hspares (hs x.1) hst).sound

theorem directRead_keeps (hspares : env.Spares) (henv : env.Undisturbed) :
    Jobs.Keeps (Server.Idle env) (directRead env) := by
  intro s x s' hs hrun
  obtain ⟨st, hst, rfl⟩ := Server.on_eq_some hrun
  exact hs.update henv (readQueryFromClient_idle hspares (hs x.1) hst)

/-- What a thread does commutes with whatever is done for another client. -/
theorem commute_markedRead (henv : env.Undisturbed) (f : ReadResult → State W → Option (State W)) :
    Jobs.Commute Server.Sound Prod.fst (fun (s : Server W) (x : ℕ × ReadResult) => s.on x.1 (f x.2))
      (markedRead env) :=
  fun _ _ y hs hne => Server.on_comm hne fun w => threadJob_at henv (hs y.1) y.2 w

theorem commute_postponeClientRead (f : ReadResult → State W → Option (State W)) :
    Jobs.Commute (fun _ => True) Prod.fst (fun (s : Server W) (x : ℕ × ReadResult) =>
      s.on x.1 (f x.2))
      postponeClientRead :=
  fun _ _ _ _ hne => Server.on_comm hne fun _ => rfl

/-- The marks and the schedule do not matter for what the threads do. -/
theorem postpone_threads (henv : env.Undisturbed) (b : Batch) (hs : s.Sound) :
    (b.pending.foldlM postponeClientRead s).bind (b.schedule.foldlM (ioThreadRead env))
      = b.pending.foldlM (markedRead env) s := by
  have hnodup : (b.schedule.map Prod.fst).Nodup := (b.perm.map Prod.fst).nodup_iff.mpr b.nodup
  have htrue : ∀ f : Server W → ℕ × ReadResult → Option (Server W), Jobs.Keeps (fun _ => True) f :=
    fun _ _ _ _ _ _ => trivial
  have hmarks : b.schedule.foldlM postponeClientRead s = b.pending.foldlM postponeClientRead s :=
    Jobs.foldlM_perm (commute_postponeClientRead fun _ st => some (st.marked true)) (htrue _) b.perm
      hnodup trivial
  calc (b.pending.foldlM postponeClientRead s).bind (b.schedule.foldlM (ioThreadRead env))
      = (b.schedule.foldlM postponeClientRead s).bind (b.schedule.foldlM (ioThreadRead env)) := by
        rw [hmarks]
    _ = b.schedule.foldlM (fun s x => (postponeClientRead s x).bind (ioThreadRead env · x)) s :=
        Jobs.foldlM_phases (commute_postponeClientRead fun r st => readQueryFromClient env st r)
          (htrue _) (htrue _) hnodup trivial
    _ = b.schedule.foldlM (markedRead env) s := by
        congr 1
        funext s x
        exact s.on_bind x.1 _ _
    _ = b.pending.foldlM (markedRead env) s :=
        Jobs.foldlM_perm (commute_markedRead henv (threadJob env)) markedRead_keeps b.perm hnodup hs

/-- **A batch of reads** by the I/O threads does what reads by the main thread do. -/
theorem threadedReads_eq (hspares : env.Spares) (henv : env.Undisturbed) (b : Batch)
    (hs : s.Idle env) :
    threadedReads env b s = directReads env b s := by
  have hcomm : Jobs.Commute Server.Sound Prod.fst (completeRead env) (markedRead env) :=
    commute_markedRead henv fun _ => handlePendingRead env
  rw [threadedReads, postpone_threads henv b hs.sound,
    Jobs.foldlM_phases hcomm markedRead_keeps (completeRead_keeps hspares) b.nodup hs.sound]
  refine Jobs.foldlM_congr (directRead_keeps hspares henv) (fun s x hs => ?_) hs
  have hread := threadedRead_eq hspares (hs x.1) x.2
  rw [markedRead, show (completeRead env · x) = (·.on x.1 (handlePendingRead env)) from rfl,
    Server.on_bind, directRead, Server.on, Server.on]
  exact congrArg (Option.map (s.update x.1)) hread

end Clients

/-! ### Runs -/

section Runs

variable {env : Env W} {s : Server W}

/-- What happens to the server: a batch of reads, a blocked client is unblocked and its
buffer is processed, and anything that has nothing to do with the clients. -/
inductive ServerStep (W : Type) where
  | reads (b : Batch)
  | unblock (i : ℕ)
  | other (f : W → W)

/-- The client is not blocked any more. -/
def State.unblocked (st : State W) : State W :=
  { st with client := { st.client with flags := { st.client.flags with blocked := false } } }

/-- A step with the given way to serve a batch. -/
def serverStep (env : Env W) (serve : Batch → Server W → Option (Server W)) (s : Server W) :
    ServerStep W → Option (Server W)
  | .reads b => serve b s
  | .unblock i => s.on i fun st => processInputBufferAndReplicate env st.unblocked
  | .other f => some { s with world := f s.world }

/-- A server to which nothing was sent yet. -/
def Server.fresh (w : W) : Server W := ⟨w, fun _ => freshClient, fun _ => []⟩

theorem Server.fresh_idle (w : W) : (Server.fresh w).Idle env :=
  fun _ => ⟨rfl, le_rfl, rfl, rfl, rfl, .inl rfl⟩

theorem directStep_keeps (hspares : env.Spares) (henv : env.Undisturbed) :
    Jobs.Keeps (Server.Idle env) (serverStep env (directReads env)) := by
  intro s step s' hs hrun
  cases step with
  | reads b => exact (directRead_keeps hspares henv).foldlM hs hrun
  | unblock i =>
    have hrun : (s.on i fun st => processInputBufferAndReplicate env st.unblocked) = some s' := hrun
    obtain ⟨st, hst, rfl⟩ := Server.on_eq_some hrun
    have hsound := (hs i).sound
    have hunblocked : (s.focus i).unblocked.client.Sound :=
      ⟨hsound.pos, hsound.bulklen, hsound.master⟩
    exact hs.update henv (processInputBufferAndReplicate_idle hspares hunblocked (hs i).pendingRead
      (hs i).pendingCommand hst)
  | other f =>
    obtain rfl := Option.some.inj hrun
    exact fun i => (hs i).at henv (f s.world)

/-- Every client is in a state in which it can be. -/
def Server.Reached (env : Env W) (s : Server W) : Prop :=
  ∀ i, Networking.Reached env (s.focus i) ∧ (s.focus i).client.flags.master = false

theorem Server.Reached.on (h : s.Reached env) (i : ℕ) {f : State W → Option (State W)}
    (hf : ∃ st, f (s.focus i) = some st ∧ Networking.Reached env st ∧
      st.client.flags.master = false) :
    ∃ s', s.on i f = some s' ∧ s'.Reached env := by
  obtain ⟨st, hst, hreached⟩ := hf
  refine ⟨s.update i st, by rw [Server.on, hst]; rfl, fun j => ?_⟩
  by_cases hij : j = i
  · subst hij
    rw [Server.focus_update_self]
    exact hreached
  · rw [Server.focus_update_of_ne hij]
    exact ⟨(h j).1.outside st.world _ _ id, (h j).2⟩

/-- No step of the main thread fails, if every command settles. -/
theorem directStep_total (hsettle : env.Settles) (hs : s.Reached env) (step : ServerStep W) :
    ∃ s', serverStep env (directReads env) s step = some s' ∧ s'.Reached env := by
  cases step with
  | reads b =>
    show ∃ s', b.pending.foldlM (directRead env) s = some s' ∧ _
    induction b.pending generalizing s with
    | nil => exact ⟨s, rfl, hs⟩
    | cons x l ih =>
      have hread := (hs x.1).1.readQueryFromClient hsettle (hs x.1).2 x.2
      obtain ⟨s₁, hread, hs₁⟩ := hs.on (f := (readQueryFromClient env · x.2)) x.1 hread
      obtain ⟨s', hrun, hs'⟩ := ih hs₁
      refine ⟨s', ?_, hs'⟩
      rw [List.foldlM_cons, directRead, hread]
      exact hrun
  | unblock i =>
    show ∃ s', (s.on i fun st => processInputBufferAndReplicate env st.unblocked) = some s' ∧ _
    refine hs.on i ?_
    have hunblocked : Networking.Reached env (s.focus i).unblocked :=
      (hs i).1.outside _ { (s.focus i).client.flags with blocked := false } _ id
    obtain ⟨st, hrun, hst, hlink⟩ := hunblocked.processInputBuffer hsettle
    refine ⟨st, ?_, hst, hlink.2.trans (hs i).2⟩
    rw [processInputBufferAndReplicate_eq (by exact (hs i).2)]
    exact hrun
  | other f => exact ⟨_, rfl, fun i => ⟨(hs i).1.outside (f s.world) _ _ id, (hs i).2⟩⟩

theorem directRun_total (hsettle : env.Settles) (hs : s.Reached env) (steps : List (ServerStep W)) :
    ∃ s', steps.foldlM (serverStep env (directReads env)) s = some s' := by
  induction steps generalizing s with
  | nil => exact ⟨s, rfl⟩
  | cons step steps ih =>
    obtain ⟨s₁, hstep, hs₁⟩ := directStep_total hsettle hs step
    obtain ⟨s', hrun⟩ := ih hs₁
    refine ⟨s', ?_⟩
    rw [List.foldlM_cons, hstep]
    exact hrun

/-- **Threaded and direct reading execute the same commands**, with any number of
threads and in any order in which they get to their clients: both leave the same
clients, and for each of them the same events happened.  If every command settles,
this is a state and not a failed assertion. -/
theorem threaded_reads_same (env : Env W) (hspares : env.Spares) (henv : env.Undisturbed) (w : W)
    (steps : List (ServerStep W)) :
    steps.foldlM (serverStep env (threadedReads env)) (.fresh w)
        = steps.foldlM (serverStep env (directReads env)) (.fresh w)
      ∧ (env.Settles → ∃ s, steps.foldlM (serverStep env (directReads env))
        (.fresh w) = some s) := by
  refine ⟨Jobs.foldlM_congr (directStep_keeps hspares henv) (fun s step hs => ?_)
    (Server.fresh_idle w),
    fun hsettle => directRun_total hsettle (fun _ => ⟨.fresh w, rfl⟩) steps⟩
  cases step with
  | reads b => exact threadedReads_eq hspares henv b hs
  | unblock i => rfl
  | other f => rfl

/-- Two clients, the first one with three requests in two reads. -/
def pipelined : List (ServerStep Unit) :=
  [.reads (.dealt 2 Nat.two_pos
      [(0, .bytes "PING\r\n*1\r\n$4\r\nPI".toUTF8.toList), (1, .bytes "PING\r\n".toUTF8.toList)]
      (by decide)),
    .reads (.dealt 2 Nat.two_pos [(0, .bytes "NG\r\n\r\nPING\r\n".toUTF8.toList)] (by decide))]

theorem quietServer_spares : quietServer.Spares := ⟨fun _ _ _ => rfl, fun _ _ _ h => h⟩

theorem quietServer_undisturbed : quietServer.Undisturbed := ⟨fun _ => rfl, fun _ _ => rfl⟩

theorem threaded_reads_same_pipelined :
    pipelined.foldlM (serverStep quietServer (threadedReads quietServer)) (.fresh ())
        = pipelined.foldlM (serverStep quietServer (directReads quietServer)) (.fresh ())
      ∧ (∃ s, pipelined.foldlM (serverStep quietServer (directReads quietServer))
        (.fresh ()) = some s)
      ∧ (pipelined.foldlM (serverStep quietServer (threadedReads quietServer)) (.fresh ())).map
          (fun s => s.log 0) = some (List.replicate 3 (.command ["PING".toUTF8.toList])) := by
  obtain ⟨heq, htotal⟩ :=
    threaded_reads_same quietServer quietServer_spares quietServer_undisturbed () pipelined
  exact ⟨heq, htotal quietServer_settles, by decide +kernel⟩

/-- A server whose commands free the client that sent them. -/
def freeingServer : Env Unit :=
  { quietServer with processCommand := fun _ f _ => ((), ⟨true, f, false, false, true⟩) }

/-- The main thread returns at once from a command that freed its client, and the loop
of `handleClientsWithPendingReadsUsingThreads` goes on with the client. -/
theorem threaded_read_of_freed_client :
    let steps : List (ServerStep Unit) :=
      [.reads (.dealt 1 (by decide) [(0, .bytes "PING\r\n".toUTF8.toList)] (by decide))]
    steps.foldlM (serverStep freeingServer (threadedReads freeingServer)) (.fresh ()) = none
      ∧ (steps.foldlM (serverStep freeingServer (directReads freeingServer)) (.fresh ())).map
          (fun s => s.log 0) = some [.command ["PING".toUTF8.toList]] := by
  refine ⟨?_, by decide +kernel⟩
  decide +kernel

end Runs

end Networking
