/-
Pausing the clients (networking.c, `pauseClients` and `clientsArePaused`).

`processInputBuffer` asks `clientsArePaused` before every request, so that it executes
no command while clients are paused (`processInputBuffer_world`).  The second loop of
`handleClientsWithPendingReadsUsingThreads` does not ask: a command that an I/O thread
parsed is executed even if a command of the same batch has paused the clients
meanwhile.  The executed commands are recorded together with the pause as it was at
that moment (`Env.recorded`), and `paused_execution_iff` says which runs are free of such
executions.
-/
import DecomposeRedis.QueryReplicate
import DecomposeRedis.Runs

namespace Networking

open Sds

variable {W : Type}

/-! ### The pause -/

/-- `clients_paused` and `clients_pause_end_time`, with the cached time `mstime`. -/
structure Pause where
  paused : Bool
  endTime : ℤ
  mstime : ℤ
  deriving DecidableEq

/-- `pauseClients` -/
def Pause.pauseClients (p : Pause) (until_ : ℤ) : Pause :=
  { p with
    endTime := if !p.paused || p.endTime < until_ then until_ else p.endTime
    paused := true }

/-- `clientsArePaused`: what it returns, and the pause after an end that was reached is
noticed. -/
def Pause.clientsArePaused (p : Pause) : Bool × Pause :=
  let p := if p.paused && p.endTime < p.mstime then { p with paused := false } else p
  (p.paused, p)

/-- What can happen to the pause, as long as the clock does not go back. -/
inductive Pause.Evolves (p : Pause) : Pause → Prop
  | refl : p.Evolves p
  | pauseClients {q : Pause} (until_ : ℤ) : p.Evolves q → p.Evolves (q.pauseClients until_)
  | clientsArePaused {q : Pause} : p.Evolves q → p.Evolves q.clientsArePaused.2
  | tick {q : Pause} (t : ℤ) : p.Evolves q → q.mstime ≤ t → p.Evolves { q with mstime := t }

/-- A pause that is not over is known. -/
def Pause.Guarded (p : Pause) : Prop := p.endTime < p.mstime ∨ p.paused = true

theorem Pause.Evolves.guarded {p q : Pause} (h : p.Evolves q) (hp : p.Guarded) : q.Guarded := by
  induction h with
  | refl => exact hp
  | pauseClients until_ _ _ => exact .inr rfl
  | @clientsArePaused q _ ih =>
    rw [Pause.clientsArePaused]
    split
    · rename_i hover
      rw [Bool.and_eq_true, decide_eq_true_eq] at hover
      exact .inl hover.2
    · exact ih
  | tick t _ ht ih =>
    rcases ih with hover | hpaused
    · exact .inl (hover.trans_le ht)
    · exact .inr hpaused

/-- With a guarded pause, clients are paused exactly until its end. -/
theorem Pause.Guarded.clientsArePaused_eq_false {p : Pause} (h : p.Guarded) :
    p.clientsArePaused.1 = false ↔ p.endTime < p.mstime := by
  rw [Pause.clientsArePaused]
  by_cases hover : p.endTime < p.mstime
  · cases hpaused : p.paused <;> simp [hover, hpaused]
  · have hpaused := h.resolve_left hover
    simp [hover, hpaused]

/-- **An overlapping pause** does not shorten the one in progress. -/
theorem Pause.Guarded.le_pauseClients {p : Pause} (h : p.Guarded) (hlast : p.mstime ≤ p.endTime)
    (until_ : ℤ) : p.endTime ≤ (p.pauseClients until_).endTime := by
  have hpaused := h.resolve_left hlast.not_gt
  rw [Pause.pauseClients, hpaused]
  by_cases hlater : p.endTime < until_
  · simpa [hlater] using hlater.le
  · simp [hlater]

/-! ### The executed commands -/

/-- The state of the server when a command was executed. -/
structure Executed where
  slave : Bool
  pause : Pause
  deriving DecidableEq

/-- The command is of a replica, or the pause was over. -/
def Executed.Fine (e : Executed) : Prop := e.slave = true ∨ e.pause.endTime < e.pause.mstime

instance : DecidablePred Executed.Fine :=
  fun e => inferInstanceAs (Decidable (e.slave = true ∨ e.pause.endTime < e.pause.mstime))

/-- The same environment, where the executed commands are recorded. -/
def Env.recorded (env : Env W) (pause : W → Pause) : Env (W × List Executed) where
  string2ll := env.string2ll
  processCommand w f argv :=
    let x := env.processCommand w.1 f argv
    ((x.1, w.2 ++ [⟨f.slave, pause w.1⟩]), x.2)
  processGopherRequest w argv := (env.processGopherRequest w.1 argv, w.2)
  clientsArePaused w := env.clientsArePaused w.1
  luaTimedout w := env.luaTimedout w.1
  gopherEnabled := env.gopherEnabled
  protoMaxBulkLen := env.protoMaxBulkLen
  clientMaxQuerybufLen := env.clientMaxQuerybufLen

/-! ### What the loop does to the server -/

section World

variable {env : Env W} {st s : State W}

theorem bulkLoop_flags {n : ℕ} {c c₁ : Client} (h : bulkLoop env n c = some (.ready, c₁)) :
    c₁.flags = c.flags := by
  induction n generalizing c with
  | zero =>
    obtain ⟨-, rfl⟩ := Prod.mk.inj (Option.some.inj h)
    rfl
  | succ n ih =>
    rw [bulkLoop] at h
    obtain ⟨⟨p, x⟩, hx, h⟩ := Option.bind_eq_some_iff.mp h
    cases p with
    | error e => cases h
    | more => cases h
    | ready =>
      obtain ⟨⟨p, y⟩, hy, h⟩ := Option.bind_eq_some_iff.mp h
      cases p with
      | error e => cases h
      | more => cases h
      | ready =>
        rw [ih h, (readBulk_ends hy).readyAt.2, (readBulkLen_ends hx).readyAt.2.2]

theorem processMultibulkBuffer_flags {c c₁ : Client}
    (h : processMultibulkBuffer env c = some (.ready, c₁)) : c₁.flags = c.flags := by
  have hbulks : ∀ {d : Client}, readBulks env d = some (.ready, c₁) → c₁.flags = d.flags := by
    intro d hd
    rw [readBulks] at hd
    split at hd
    · cases hd
    · exact bulkLoop_flags hd
  rw [processMultibulkBuffer] at h
  split at h
  · obtain ⟨⟨p, x⟩, hx, h⟩ := Option.bind_eq_some_iff.mp h
    cases p with
    | error e => cases h
    | more => cases h
    | ready =>
      rw [← (readMultibulkLen_ends hx).readyAt]
      simp only at h
      split at h
      · obtain ⟨-, rfl⟩ := Prod.mk.inj (Option.some.inj h)
        rfl
      · exact hbulks h
  · exact hbulks h

/-- What a turn can do to the server: nothing, serve a Gopher request, or execute a
command, if the tests at the head of the loop let it through. -/
inductive WorldTurn (env : Env W) (st : State W) : W → Prop
  | nothing : WorldTurn env st st.world
  | gopher (argv : List Bytes) : WorldTurn env st (env.processGopherRequest st.world argv)
  | command (argv : List Bytes) :
    halted env st.world st.client.flags = false →
    WorldTurn env st (env.processCommand st.world st.client.flags argv).1

theorem runRequest_worldTurn {c : Client} (hflags : c.flags = st.client.flags)
    (hhalt : halted env st.world st.client.flags = false) :
    WorldTurn env st (runRequest env { st with client := c }).state.world := by
  rw [runRequest]
  split
  · exact .nothing
  split
  · exact .nothing
  · have hcmd := WorldTurn.command c.argv hhalt
    rw [← hflags] at hcmd
    simp only
    split <;> exact hcmd

theorem inputTurn_worldTurn {t : Turn W} (h : inputTurn env st = some t) :
    WorldTurn env st t.state.world := by
  rw [inputTurn] at h
  by_cases hhalt : halted env st.world st.client.flags = true
  · rw [if_pos hhalt] at h
    obtain rfl := Option.some.inj h
    exact .nothing
  rw [if_neg hhalt] at h
  have hhalt := eq_false_of_ne_true hhalt
  obtain ⟨rest, -, h⟩ := Option.bind_eq_some_iff.mp h
  have hflags := (st.client.setReqtype_flags rest).1
  generalize st.client.setReqtype rest = c at h hflags
  have hstop : ∀ (c₁ : Client) (p : Progress),
      WorldTurn env st (stopTurn { st with client := c₁ } p).state.world := by
    intro c₁ p
    cases p <;> exact .nothing
  rcases htype : c.reqtype with _ | _ | _
  · simp only [htype] at h
    cases h
  · simp only [htype] at h
    obtain ⟨⟨p, c₁⟩, hparse, rfl⟩ := Option.map_eq_some_iff.mp h
    cases p with
    | more => exact hstop c₁ _
    | error e => exact hstop c₁ _
    | ready =>
      simp only
      split
      · exact .gopher c₁.argv
      · exact runRequest_worldTurn ((processInlineBuffer_ends hparse).readyAt.trans hflags) hhalt
  · simp only [htype] at h
    obtain ⟨⟨p, c₁⟩, hparse, rfl⟩ := Option.map_eq_some_iff.mp h
    cases p with
    | more => exact hstop c₁ _
    | error e => exact hstop c₁ _
    | ready => exact runRequest_worldTurn ((processMultibulkBuffer_flags hparse).trans hflags) hhalt

/-- A relation between states of the server that the loop respects: Gopher requests and
commands that pass the tests are in it. -/
structure Respects (env : Env W) (R : W → W → Prop) : Prop where
  refl : ∀ w, R w w
  trans : ∀ {u v w}, R u v → R v w → R u w
  gopher : ∀ w argv, R w (env.processGopherRequest w argv)
  command : ∀ w f argv, halted env w f = false → R w (env.processCommand w f argv).1

variable {R : W → W → Prop}

theorem WorldTurn.respects (hR : Respects env R) {w : W} (h : WorldTurn env st w) :
    R st.world w := by
  cases h with
  | nothing => exact hR.refl _
  | gopher argv => exact hR.gopher _ argv
  | command argv hhalt => exact hR.command _ _ argv hhalt

theorem inputLoop_world (hR : Respects env R) {fuel : ℕ} {x : State W × Bool}
    (hrun : inputLoop env fuel st = some x) : R st.world x.1.world := by
  have hturn : ∀ {s t}, R st.world s.world → inputTurn env s = some t → R st.world t.state.world :=
    fun hs ht => hR.trans hs ((inputTurn_worldTurn ht).respects hR)
  exact inputLoop_keeps (J := fun x => R st.world x.1.world) id (fun hs _ => hturn hs)
    (fun hs _ => hturn hs)
    (fun hs _ => hturn hs) (hR.refl _) hrun

/-- **`processInputBuffer`** executes only commands that pass the tests. -/
theorem processInputBuffer_world (hR : Respects env R) (hrun : processInputBuffer env st = some s) :
    R st.world s.world := by
  rw [processInputBuffer] at hrun
  obtain ⟨x, hloop, rfl⟩ := Option.map_eq_some_iff.mp hrun
  have hx := inputLoop_world hR hloop
  split <;> exact hx

theorem processInputBufferAndReplicate_world (hR : Respects env R)
    (hrun : processInputBufferAndReplicate env st = some s) : R st.world s.world := by
  rw [processInputBufferAndReplicate] at hrun
  split at hrun
  · exact processInputBuffer_world hR hrun
  · obtain ⟨s₁, hs₁, hrun⟩ := Option.bind_eq_some_iff.mp hrun
    have h := processInputBuffer_world hR hs₁
    simp only at hrun
    split_ifs at hrun
    · exact Option.some.inj hrun ▸ h
    · exact Option.some.inj hrun ▸ h

theorem readQueryFromClient_world (hR : Respects env R) {r : ReadResult}
    (hrun : readQueryFromClient env st r = some s) : R st.world s.world := by
  cases hmaster : st.client.flags.master with
  | false =>
    rw [readQueryFromClient_receive hmaster] at hrun
    cases harrival : arrival env st.client.querybuf r with
    | nothing =>
      rw [harrival] at hrun
      exact Option.some.inj hrun ▸ hR.refl _
    | close data =>
      rw [harrival] at hrun
      exact Option.some.inj hrun ▸ hR.refl _
    | parse data =>
      rw [harrival] at hrun
      have h := processInputBuffer_world hR hrun
      exact h
  | true =>
    cases r with
    | eagain => exact Option.some.inj hrun ▸ hR.refl _
    | error => exact Option.some.inj hrun ▸ hR.refl _
    | bytes data =>
      by_cases hne : data = []
      · subst hne
        exact Option.some.inj hrun ▸ hR.refl _
      rw [readQueryFromClient_master hmaster hne] at hrun
      split at hrun
      · exact Option.some.inj hrun ▸ hR.refl _
      · have h := processInputBufferAndReplicate_world hR hrun
        exact h

end World

/-! ### Runs -/

/-- What happens to the server: a client is postponed, something is read, by the main
thread or, for a client that is postponed, by an I/O thread, the second loop of
`handleClientsWithPendingReadsUsingThreads` gets to a client, a client is reprocessed
because it is not blocked or the pause is over, and anything else. -/
inductive PauseStep (W : Type) where
  | postpone (i : ℕ)
  | read (i : ℕ) (r : ReadResult)
  | complete (i : ℕ)
  | unblock (i : ℕ)
  | other (f : W → W)

def pauseStep (env : Env W) (s : Server W) : PauseStep W → Option (Server W × Unit)
  | .postpone i => (s.on i fun st => some (st.marked true)).map (·, ())
  | .read i r => (s.on i (readQueryFromClient env · r)).map (·, ())
  | .complete i => (s.on i (handlePendingRead env)).map (·, ())
  | .unblock i => (s.on i fun st => processInputBufferAndReplicate env st.unblocked).map (·, ())
  | .other f => some ({ s with world := f s.world }, ())

/-- Only the second loop has to take care: when it gets to a client with a parsed
command, clients are not paused, unless it is a replica. -/
def Unpaused (env : Env W) (s : Server W) : PauseStep W → Prop
  | .complete i => (s.client i).flags.pendingCommand = true →
    (s.client i).flags.slave = true ∨ env.clientsArePaused s.world = false
  | _ => True

instance (env : Env W) (s : Server W) : DecidablePred (Unpaused env s)
  | .complete i => inferInstanceAs (Decidable ((s.client i).flags.pendingCommand = true →
      (s.client i).flags.slave = true ∨ env.clientsArePaused s.world = false))
  | .postpone _ => inferInstanceAs (Decidable True)
  | .read _ _ => inferInstanceAs (Decidable True)
  | .unblock _ => inferInstanceAs (Decidable True)
  | .other _ => inferInstanceAs (Decidable True)

/-- The environment knows the pause and treats it as the server does: commands and Gopher
requests may pause clients, and time passes meanwhile. -/
structure Env.Pausing (env : Env W) (pause : W → Pause) : Prop where
  paused : ∀ w, env.clientsArePaused w = (pause w).clientsArePaused.1
  command : ∀ w f argv, (pause w).Evolves (pause (env.processCommand w f argv).1)
  gopher : ∀ w argv, (pause w).Evolves (pause (env.processGopherRequest w argv))

section Runs

variable {env : Env W} {pause : W → Pause}

/-- The pause stays guarded, and the commands executed meanwhile are fine. -/
def Guards (pause : W → Pause) (w w' : W × List Executed) : Prop :=
  (pause w.1).Guarded →
    (pause w'.1).Guarded ∧ ∃ new : List Executed, w'.2 = w.2 ++ new ∧ ∀ e ∈ new, e.Fine

theorem halted_false {w : W} {f : Flags} (h : halted env w f = false) :
    f.slave = true ∨ env.clientsArePaused w = false := by
  simp only [halted, Bool.or_eq_false_iff, Bool.and_eq_false_iff, Bool.not_eq_false'] at h
  tauto

theorem guards_respected (henv : env.Pausing pause) :
    Respects (env.recorded pause) (Guards pause) where
  refl w hw := ⟨hw, [], (List.append_nil _).symm, nofun⟩
  trans := by
    rintro u v w huv hvw hu
    obtain ⟨hv, new, hnew, hfine⟩ := huv hu
    obtain ⟨hw, new', hnew', hfine'⟩ := hvw hv
    refine ⟨hw, new ++ new', by rw [hnew', hnew, List.append_assoc], fun e he => ?_⟩
    rcases List.mem_append.mp he with he | he
    · exact hfine e he
    · exact hfine' e he
  gopher w argv hw := ⟨(henv.gopher w.1 argv).guarded hw, [], (List.append_nil _).symm, nofun⟩
  command w f argv hhalt hw := by
    refine ⟨(henv.command w.1 f argv).guarded hw, [⟨f.slave, pause w.1⟩], rfl, fun e he => ?_⟩
    obtain rfl := List.mem_singleton.mp he
    rcases halted_false hhalt with hslave | hpaused
    · exact .inl hslave
    · refine .inr (hw.clientsArePaused_eq_false.mp ?_)
      rw [← henv.paused]
      exact hpaused

/-- The executed commands so far. -/
def Server.executed (s : Server (W × List Executed)) : List Executed := s.world.2

/-- A step keeps the pause guarded, and executes only fine commands if and only if it
meets the condition. -/
structure StepSpec (env : Env W) (pause : W → Pause) (s : Server (W × List Executed))
    (step : PauseStep (W × List Executed)) (s' : Server (W × List Executed)) : Prop where
  guarded : (pause s'.world.1).Guarded
  fine : ∃ new, s'.executed = s.executed ++ new ∧
    ((∀ e ∈ new, e.Fine) ↔ Unpaused (env.recorded pause) s step)

theorem handlePendingRead_world (henv : env.Pausing pause) {st st' : State (W × List Executed)}
    (hw : (pause st.world.1).Guarded)
    (hrun : handlePendingRead (env.recorded pause) st = some st') :
    (pause st'.world.1).Guarded ∧ ∃ new, st'.world.2 = st.world.2 ++ new ∧
      ((∀ e ∈ new, e.Fine) ↔ (st.client.flags.pendingCommand = true →
        st.client.flags.slave = true ∨ env.clientsArePaused st.world.1 = false)) := by
  have hR := guards_respected henv
  by_cases hp : st.client.flags.pendingCommand = true
  · rw [handlePendingRead] at hrun
    simp only [if_pos hp] at hrun
    split at hrun
    · cases hrun
    -- the parsed command is executed without a test, and then the loop goes on
    obtain ⟨hw', new, hnew, hfine⟩ := processInputBufferAndReplicate_world hR hrun
      ((henv.command st.world.1 _ _).guarded hw)
    refine ⟨hw', ⟨st.client.flags.slave, pause st.world.1⟩ :: new, ?_, ?_⟩
    · rw [hnew, List.append_cons]
      rfl
    · rw [List.forall_mem_cons, henv.paused, hw.clientsArePaused_eq_false]
      exact ⟨fun h _ => h.1, fun h => ⟨h hp, hfine⟩⟩
  · rw [handlePendingRead_eq (eq_false_of_ne_true hp)] at hrun
    obtain ⟨hw', new, hnew, hfine⟩ := processInputBufferAndReplicate_world hR hrun hw
    exact ⟨hw', new, hnew, fun _ h => absurd h hp, fun _ => hfine⟩

theorem Server.on_map_eq_some {V : Type} {s s' : Server V} {i : ℕ} {f : State V → Option (State V)}
    (h : (s.on i f).map (·, ()) = some (s', ())) :
    ∃ st, f (s.focus i) = some st ∧ s' = s.update i st := by
  obtain ⟨s₁, hon, heq⟩ := Option.map_eq_some_iff.mp h
  obtain rfl := (Prod.mk.inj heq).1
  exact Server.on_eq_some hon

theorem pauseStep_spec (henv : env.Pausing pause) {s s' : Server (W × List Executed)}
    (hs : (pause s.world.1).Guarded) {step : PauseStep (W × List Executed)}
    (hother : ∀ f, step = .other f → ∀ w, (pause w.1).Evolves (pause (f w).1) ∧ (f w).2 = w.2)
    (hrun : pauseStep (env.recorded pause) s step = some (s', ())) :
    StepSpec env pause s step s' := by
  have hR := guards_respected henv
  cases step with
  | postpone i =>
    rw [pauseStep] at hrun
    obtain ⟨st, hst, rfl⟩ := Server.on_map_eq_some hrun
    obtain rfl := Option.some.inj hst
    exact ⟨hs, [], (List.append_nil _).symm, fun _ => trivial, fun _ => nofun⟩
  | read i r =>
    rw [pauseStep] at hrun
    obtain ⟨st, hst, rfl⟩ := Server.on_map_eq_some hrun
    obtain ⟨hw, new, hnew, hfine⟩ := readQueryFromClient_world hR hst hs
    exact ⟨hw, new, hnew, fun _ => trivial, fun _ => hfine⟩
  | complete i =>
    rw [pauseStep] at hrun
    obtain ⟨st, hst, rfl⟩ := Server.on_map_eq_some hrun
    obtain ⟨hw, new, hnew, hfine⟩ := handlePendingRead_world henv hs hst
    exact ⟨hw, new, hnew, hfine⟩
  | unblock i =>
    rw [pauseStep] at hrun
    obtain ⟨st, hst, rfl⟩ := Server.on_map_eq_some hrun
    obtain ⟨hw, new, hnew, hfine⟩ := processInputBufferAndReplicate_world hR hst hs
    exact ⟨hw, new, hnew, fun _ => trivial, fun _ => hfine⟩
  | other f =>
    obtain ⟨hevolves, hlog⟩ := hother f rfl s.world
    obtain rfl := (Prod.mk.inj (Option.some.inj hrun)).1
    exact ⟨hevolves.guarded hs, [], by rw [List.append_nil]; exact hlog, fun _ => trivial,
      fun _ => nofun⟩

theorem pauseRun_spec (henv : env.Pausing pause) {s s' : Server (W × List Executed)}
    (hs : (pause s.world.1).Guarded) {steps : List (PauseStep (W × List Executed))}
    (hother : ∀ f, .other f ∈ steps → ∀ w, (pause w.1).Evolves (pause (f w).1) ∧ (f w).2 = w.2)
    {os : List Unit} (hrun : Runs.run (pauseStep (env.recorded pause)) s steps = some (s', os)) :
    (pause s'.world.1).Guarded ∧ ∃ new, s'.executed = s.executed ++ new ∧
      ((∀ e ∈ new, e.Fine) ↔
        Runs.Meets (pauseStep (env.recorded pause)) (Unpaused (env.recorded pause)) s steps) := by
  induction steps generalizing s os with
  | nil =>
    obtain rfl := (Prod.mk.inj (Option.some.inj hrun)).1
    exact ⟨hs, [], (List.append_nil _).symm, fun _ => trivial, fun _ => nofun⟩
  | cons step steps ih =>
    rw [Runs.run] at hrun
    obtain ⟨⟨s₁, o⟩, hstep, hrun⟩ := Option.bind_eq_some_iff.mp hrun
    obtain ⟨⟨s₂, os₂⟩, htail, heq⟩ := Option.map_eq_some_iff.mp hrun
    obtain rfl := (Prod.mk.inj heq).1
    obtain ⟨hs₁, new, hnew, hfine⟩ := pauseStep_spec henv hs
      (fun f hf => hother f (hf ▸ List.mem_cons_self)) hstep
    obtain ⟨hs₂, new', hnew', hfine'⟩ :=
      ih hs₁ (fun f hf => hother f (List.mem_cons_of_mem _ hf)) htail
    refine ⟨hs₂, new ++ new', by rw [hnew', hnew, List.append_assoc], ?_⟩
    rw [List.forall_mem_append, hfine, hfine']
    refine and_congr_right fun _ => ⟨fun h s'' o' hstep' => ?_, fun h => h s₁ o hstep⟩
    obtain rfl := (Prod.mk.inj (Option.some.inj (hstep.symm.trans hstep'))).1
    exact h

/-- The server starts without a pause. -/
def Server.freshRecorded (w : W) : Server (W × List Executed) := .fresh (w, [])

/-- **While clients are paused no command is executed**, in every interleaving of reads by
the main thread and by I/O threads, if and only if the second loop of
`handleClientsWithPendingReadsUsingThreads` gets to no client with a parsed command while
clients are paused; and in every state that is reached, a pause that overlaps the one in
progress does not shorten it. -/
theorem paused_execution_iff (env : Env W) (pause : W → Pause) (henv : env.Pausing pause) (w : W)
    (hstart : (pause w).endTime < (pause w).mstime) (steps : List (PauseStep (W × List Executed)))
    (hother : ∀ f, .other f ∈ steps → ∀ w, (pause w.1).Evolves (pause (f w).1) ∧ (f w).2 = w.2)
    {s : Server (W × List Executed)} {os : List Unit}
    (hrun : Runs.run (pauseStep (env.recorded pause)) (.freshRecorded w) steps = some (s, os)) :
    ((∀ e ∈ s.executed, e.Fine) ↔ Runs.Meets (pauseStep (env.recorded pause))
        (Unpaused (env.recorded pause)) (.freshRecorded w) steps)
      ∧ ∀ until_, (pause s.world.1).mstime ≤ (pause s.world.1).endTime →
          (pause s.world.1).endTime ≤ ((pause s.world.1).pauseClients until_).endTime := by
  obtain ⟨hs, new, hnew, hfine⟩ := pauseRun_spec henv (.inl hstart) hother hrun
  rw [hnew]
  exact ⟨hfine, fun until_ hlast => hs.le_pauseClients hlast until_⟩

end Runs

/-- A server on which `PAUSE` pauses clients until 100. -/
def pausingServer : Env Pause where
  string2ll := quietServer.string2ll
  processCommand p f argv :=
    (if argv = ["PAUSE".toUTF8.toList] then p.pauseClients 100
      else p, ⟨true, f, false, false, false⟩)
  processGopherRequest p _ := p
  clientsArePaused p := p.clientsArePaused.1
  luaTimedout _ := false
  gopherEnabled := false
  protoMaxBulkLen := 536870912
  clientMaxQuerybufLen := 1073741824

theorem pausingServer_pausing : pausingServer.Pausing id where
  paused _ := rfl
  command p f argv := by
    show p.Evolves (if _ then _ else _)
    split
    · exact .pauseClients 100 .refl
    · exact .refl
  gopher _ _ := .refl

/-- The second client sends a request while clients are paused, which is executed after
the pause. -/
def pausedSteps : List (PauseStep (Pause × List Executed)) :=
  [.read 0 (.bytes "PAUSE\r\n".toUTF8.toList), .postpone 1,
    .read 1 (.bytes "PING\r\n".toUTF8.toList),
    .complete 1, .other fun w => ({ w.1 with mstime := max w.1.mstime 101 }, w.2), .unblock 1]

theorem paused_execution_iff_after_pause :
    ∃ s os, Runs.run (pauseStep (pausingServer.recorded id))
      (.freshRecorded ⟨false, 0, 1⟩) pausedSteps
        = some (s, os)
      ∧ (∀ e ∈ s.executed, e.Fine) ∧ s.executed.map (fun e => e.pause.mstime) = [1, 101] := by
  have hsome : (Runs.run (pauseStep (pausingServer.recorded id)) (.freshRecorded ⟨false, 0, 1⟩)
      pausedSteps).map (fun x => x.1.executed.map fun e => e.pause.mstime) = some [1, 101] := by
    decide +kernel
  obtain ⟨⟨s, os⟩, hrun, htimes⟩ := Option.map_eq_some_iff.mp hsome
  refine ⟨s, os, hrun, ?_, htimes⟩
  refine (paused_execution_iff pausingServer id pausingServer_pausing ⟨false, 0, 1⟩
    (by decide) pausedSteps
    ?_ hrun).1.mpr (by decide +kernel)
  intro f hf w
  simp only [pausedSteps, List.mem_cons, PauseStep.other.injEq, reduceCtorEq,
    List.not_mem_nil, or_false, false_or] at hf
  subst hf
  exact ⟨.tick _ .refl (le_max_left _ _), rfl⟩

/-- Two clients in one batch: the first one pauses the clients, and the command of the
second one, which was parsed before, is executed all the same. -/
theorem paused_execution_in_batch :
    (Runs.run (pauseStep (pausingServer.recorded id)) (.freshRecorded ⟨false, 0, 1⟩)
      [.postpone 1, .postpone 0, .read 0 (.bytes "PAUSE\r\n".toUTF8.toList),
        .read 1 (.bytes "PING\r\n".toUTF8.toList), .complete 0, .complete 1]).map
      (fun x => x.1.executed)
    = some [⟨false, ⟨false, 0, 1⟩⟩, ⟨false, ⟨true, 100, 1⟩⟩] := by
  decide +kernel

end Networking
