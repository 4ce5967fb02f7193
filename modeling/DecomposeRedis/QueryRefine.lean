/-
The query buffer refines the request machine.

`Client.Ok` is the invariant of the parser state: `qb_pos` lies in the buffer,
`argv` has a slot for every argument that is still to come, and the type of a
request whose first line is not complete fits its first byte.  The session of a
client forgets where in the buffer the unparsed bytes are.  Every function of the
parser keeps the invariant and takes the session through steps of the machine:

* `readBulkLen_spec`, `readBulk_spec` — one line or one argument, one step;
* `Parsed` — what a parser for a whole request can do;
* `inputTurn_spec`, `processInputBuffer_spec` — `processInputBuffer` runs the
  machine until it needs more input.
-/
import DecomposeRedis.RequestStream

namespace Networking

open Sds

variable {W : Type}

/-! ### The session of a client -/

/-- The bytes that are not parsed. -/
def Client.rest (c : Client) : Bytes := c.querybuf.drop c.qbPos

/-- How much is known of the current request. -/
def Client.mode (c : Client) : Mode :=
  if c.multibulklen = 0 then .start
  else if c.bulklen = -1 then .bulks c.multibulklen c.argv
  else .payload c.multibulklen c.bulklen.toNat c.argv

/-- The session of a client in the given surroundings. -/
def Client.session (c : Client) (w : W) (log : List Event) : Session W :=
  ⟨w, c.flags, log, c.mode⟩

def State.session (st : State W) : Session W := st.client.session st.world st.log

/-- The flags with which nothing more is parsed, for good or until the pending
command is executed. -/
def Flags.held (f : Flags) : Bool :=
  f.pendingCommand || f.closeAfterReply || f.closeAsap

/-- The type of a request is known from its first byte. -/
def Client.TypeFits (c : Client) : Prop :=
  match c.reqtype with
  | .unknown => True
  | .multibulk => c.rest.head? = some 42
  | .inline => c.rest ≠ [] ∧ c.rest.head? ≠ some 42

/-- The bounds of the parser state. -/
structure Client.Bounds (env : Env W) (c : Client) : Prop where
  pos : c.qbPos ≤ c.querybuf.length
  bulklen : c.bulklen = -1 ∨ 0 ≤ c.bulklen ∧ c.bulklen ≤ env.protoMaxBulkLen
  slots : 0 < c.multibulklen →
    c.reqtype = .multibulk ∧ c.argv.length + c.multibulklen = c.argvLen
  unknown : c.multibulklen = 0 → c.bulklen = -1

/-- The invariant of the parser state between two requests, or two pieces of one. -/
structure Client.Ok (env : Env W) (c : Client) : Prop extends c.Bounds env where
  idle : c.multibulklen = 0 → c.flags.held = true ∨ c.argv = [] ∧ c.TypeFits

theorem freshClient_ok (env : Env W) : freshClient.Ok env :=
  ⟨⟨le_rfl, .inl rfl, fun h => absurd h (by decide), fun _ => rfl⟩, fun _ => .inr ⟨rfl, trivial⟩⟩

theorem halted_of_held {env : Env W} {f : Flags} (h : f.held = true) (w : W) :
    halted env w f = true := by
  simp only [Flags.held, Bool.or_eq_true] at h
  simp only [halted, Bool.or_eq_true]
  tauto

theorem Client.unparsed_eq {c : Client} (h : c.qbPos ≤ c.querybuf.length) :
    c.unparsed = some c.rest := by
  rw [Client.unparsed, if_pos h]
  rfl

theorem Client.length_rest (c : Client) : c.rest.length = c.querybuf.length - c.qbPos :=
  List.length_drop

/-- A client that goes on in the buffer. -/
theorem Client.rest_advance (c : Client) (n : ℕ) :
    c.querybuf.drop (c.qbPos + n) = c.rest.drop n := by
  rw [Client.rest, List.drop_drop]

theorem Session.step_nil (env : Env W) (s : Session W) : s.step env [] = none := rfl

theorem Session.step_of_halted {env : Env W} {s : Session W} (h : halted env s.world s.flags = true)
    (r : Bytes) : s.step env r = none := by
  rw [Session.step]
  split_ifs
  · rfl
  · rfl

section Parse

variable {env : Env W} {c c' : Client} {w : W} {r : Bytes}

theorem Client.mode_start (h : c.multibulklen = 0) : c.mode = .start := if_pos h

theorem Client.mode_bulks (h : 0 < c.multibulklen) (hb : c.bulklen = -1) :
    c.mode = .bulks c.multibulklen c.argv := by
  rw [Client.mode, if_neg (by omega), if_pos hb]

theorem Client.mode_payload (h : 0 < c.multibulklen) (hb : c.bulklen ≠ -1) :
    c.mode = .payload c.multibulklen c.bulklen.toNat c.argv := by
  rw [Client.mode, if_neg (by omega), if_neg hb]

theorem Session.step_bulks (log : List Event) (hhalt : halted env w c.flags = false)
    (h : 0 < c.multibulklen) (hb : c.bulklen = -1) (hr : r ≠ []) :
    (c.session w log).step env r
      = (c.session w log).bulkLine env c.multibulklen c.argv r := by
  rw [Session.step, if_neg hr, if_neg (by simp [Client.session, hhalt])]
  simp only [Client.session, Client.mode_bulks h hb]

theorem Session.step_payload (log : List Event) (hhalt : halted env w c.flags = false)
    (h : 0 < c.multibulklen) (hb : c.bulklen ≠ -1) (hr : r ≠ []) :
    (c.session w log).step env r
      = (c.session w log).bulk env c.multibulklen c.bulklen.toNat c.argv r := by
  rw [Session.step, if_neg hr, if_neg (by simp [Client.session, hhalt])]
  simp only [Client.session, Client.mode_payload h hb]

theorem Session.step_start (log : List Event) (hhalt : halted env w c.flags = false)
    (h : c.multibulklen = 0) (hr : r ≠ []) :
    (c.session w log).step env r = if r.head? = some 42 then (c.session w log).countLine env r
      else (c.session w log).inlineLine env r := by
  rw [Session.step, if_neg hr, if_neg (by simp [Client.session, hhalt])]
  simp only [Client.session, Client.mode_start h]

/-! ### One line, one argument -/

/-- The length of an argument is one step. -/
theorem readBulkLen_spec (log : List Event) (hc : c.Ok env) (hn : 0 < c.multibulklen)
    (hb : c.bulklen = -1) (hhalt : halted env w c.flags = false) :
    (∃ c', readBulkLen env c = some (.ready, c') ∧
      (c.session w log).step env c.rest = some (c'.session w log, c'.rest) ∧ c'.Ok env ∧
      c'.bulklen ≠ -1 ∧ c'.multibulklen = c.multibulklen ∧ c'.flags = c.flags) ∨
    (readBulkLen env c = some (.more, c) ∧ (c.session w log).step env c.rest = none) ∨
    ∃ e, readBulkLen env c = some (.error e, setProtocolError c) ∧
      (c.session w log).step env c.rest = some ((c.session w log).fail e, c.rest) := by
  rw [readBulkLen, if_neg (by simp [hb]), Client.unparsed_eq hc.pos]
  simp only [Option.map_some]
  by_cases hr : c.rest = []
  · rw [hr]
    exact .inr (.inl ⟨rfl, rfl⟩)
  rw [Session.step_bulks log hhalt hn hb hr, Session.bulkLine]
  rcases hline : findLine c.rest .tooBigBulkCount with p | k
  · cases p with
    | ready => exact absurd hline (findLine_ne_ready _ _)
    | more => exact .inr (.inl ⟨rfl, rfl⟩)
    | error e => exact .inr (.inr ⟨e, rfl, rfl⟩)
  obtain ⟨-, hlen⟩ := findLine_eq_inr hline
  simp only
  by_cases hd : c.rest.head? = some 36
  case neg =>
    rw [if_pos hd, if_pos hd]
    exact .inr (.inr ⟨_, rfl, rfl⟩)
  rw [if_neg (by simp [hd]), if_neg (by simp [hd])]
  rcases hll : env.string2ll ((c.rest.drop 1).take (k - 1)) with _ | ll
  · exact .inr (.inr ⟨_, rfl, rfl⟩)
  simp only
  by_cases hbad : ll < 0 ∨ env.protoMaxBulkLen < ll
  · rw [if_pos hbad, if_pos hbad]
    exact .inr (.inr ⟨_, rfl, rfl⟩)
  have hpos : c.qbPos + (k + 2) ≤ c.querybuf.length := by
    rw [Client.length_rest] at hlen
    omega
  have hrange : 0 ≤ ll ∧ ll ≤ env.protoMaxBulkLen := by omega
  obtain ⟨htype, hslots⟩ := hc.slots hn
  -- Whether the buffer is trimmed or not, the unparsed bytes are the same.
  have hready : ∀ (buf : Bytes) (pos : ℕ), pos ≤ buf.length → buf.drop pos = c.rest.drop (k + 2) →
      let c' : Client := { c with querybuf := buf, qbPos := pos, bulklen := ll }
      (c'.Ok env ∧ c'.bulklen ≠ -1) ∧
        ({ c.session w log with mode := .payload c.multibulklen ll.toNat c.argv }
          = c'.session w log ∧ c.rest.drop (k + 2) = c'.rest) := by
    intro buf pos hle hdrop
    refine ⟨⟨⟨⟨hle, .inr hrange, fun _ => ⟨htype, hslots⟩, fun h0 => ?_⟩, fun h0 => ?_⟩, ?_⟩,
      ?_, hdrop.symm⟩
    · exact absurd h0 hn.ne'
    · exact absurd h0 hn.ne'
    · simp only
      omega
    · rw [Client.session, Client.session, Client.mode_payload (c := { c with
        querybuf := buf, qbPos := pos, bulklen := ll }) hn (by simp only; omega)]
  split_ifs with htrim
  · have hsds := sdsrange_neg_one c.querybuf hpos
    obtain ⟨hok, heq⟩ := hready (c.querybuf.drop (c.qbPos + (k + 2))) 0 (Nat.zero_le _)
      (by rw [List.drop_zero, Client.rest_advance])
    refine .inl ⟨_, rfl, ?_, ?_, ?_, rfl, rfl⟩
    all_goals simp only [hsds]
    · rw [heq.1, ← heq.2]
    · exact hok.1
    · exact hok.2
  · obtain ⟨hok, heq⟩ := hready c.querybuf (c.qbPos + (k + 2)) hpos (c.rest_advance _)
    refine .inl ⟨_, rfl, ?_, hok.1, hok.2, rfl, rfl⟩
    rw [heq.1, ← heq.2]

/-- The argument is the same, and so is what follows it, whether it is copied or
the buffer is handed over. -/
theorem readBulk_eq {len : ℕ} (hpos : c.qbPos ≤ c.querybuf.length) (hlen : c.bulklen = len)
    (hlong : len + 2 ≤ c.rest.length) (hslot : c.argv.length < c.argvLen) :
    ∃ buf pos, readBulk c = some (.ready,
        { c.addArg (c.rest.take len) with querybuf := buf, qbPos := pos }) ∧
      pos ≤ buf.length ∧ buf.drop pos = c.rest.drop (len + 2) := by
  have hrest := c.length_rest
  rw [readBulk, Client.unparsed_eq hpos, Option.bind_some, hlen, if_neg (by omega),
    if_neg (by omega), Int.toNat_natCast]
  split_ifs with hzero
  · obtain ⟨hpos0, -, hfull⟩ := hzero
    have hall : c.rest = c.querybuf := by rw [Client.rest, hpos0, List.drop_zero]
    have harg : c.querybuf.take (c.querybuf.length - 2) = c.rest.take len := by
      rw [hall]
      congr 1
      omega
    refine ⟨[], 0, ?_, le_rfl, ?_⟩
    · rw [harg]
      simp only [Client.addArg, hpos0]
    · exact (List.drop_eq_nil_of_le (by omega)).symm
  · exact ⟨c.querybuf, c.qbPos + (len + 2), rfl, by omega, c.rest_advance _⟩

/-- An argument is one step; the last one is executed at once by the machine, and
by the caller in the source. -/
theorem readBulk_spec (log : List Event) (hc : c.Ok env) (hn : 0 < c.multibulklen)
    (hb : c.bulklen ≠ -1) (hhalt : halted env w c.flags = false) :
    (readBulk c = some (.more, c) ∧ (c.session w log).step env c.rest = none) ∨
    ∃ c', readBulk c = some (.ready, c') ∧ c'.multibulklen + 1 = c.multibulklen ∧
      c'.bulklen = -1 ∧ c'.flags = c.flags ∧ c'.Bounds env ∧
      c'.argv.length + c'.multibulklen = c'.argvLen ∧ c'.rest.length < c.rest.length ∧
      (c.session w log).step env c.rest = some (if c.multibulklen = 1
        then (c.session w log).execute env c'.argv else c'.session w log, c'.rest) := by
  obtain ⟨htype, hslots⟩ := hc.slots hn
  have hlen0 : 0 ≤ c.bulklen := by
    rcases hc.bulklen with h | h
    · exact absurd h hb
    · exact h.1
  obtain ⟨len, hlen⟩ : ∃ len : ℕ, c.bulklen = len := Int.eq_ofNat_of_zero_le hlen0
  by_cases hshort : c.rest.length < len + 2
  · refine .inl ⟨?_, ?_⟩
    · rw [readBulk, Client.unparsed_eq hc.pos, Option.bind_some, if_pos (by omega)]
    · by_cases hr : c.rest = []
      · rw [hr]
        rfl
      · rw [Session.step_payload log hhalt hn hb hr, Session.bulk, hlen, Int.toNat_natCast,
          if_pos hshort]
  · have hr : c.rest ≠ [] := by
      intro h
      rw [h, List.length_nil] at hshort
      omega
    obtain ⟨buf, pos, hread, hle, hdrop⟩ :=
      readBulk_eq hc.pos hlen (by omega) (show c.argv.length < c.argvLen by omega)
    have hslots' : (c.argv ++ [c.rest.take len]).length + (c.multibulklen - 1) = c.argvLen := by
      rw [List.length_append, List.length_singleton]
      omega
    refine .inr ⟨_, hread, ?_, rfl, rfl,
      ⟨hle, .inl rfl, fun _ => ⟨htype, hslots'⟩, fun _ => rfl⟩, hslots', ?_, ?_⟩
    · show c.multibulklen - 1 + 1 = c.multibulklen
      omega
    · show (buf.drop pos).length < c.rest.length
      rw [hdrop, List.length_drop]
      omega
    · rw [Session.step_payload log hhalt hn hb hr, Session.bulk, hlen, Int.toNat_natCast,
        if_neg hshort, ← hdrop]
      by_cases hone : c.multibulklen = 1
      · simp only [if_pos hone]
        rfl
      · have hmode : Client.mode { c.addArg (c.rest.take len) with querybuf := buf, qbPos := pos }
            = .bulks (c.multibulklen - 1) (c.argv ++ [c.rest.take len]) :=
          Client.mode_bulks (show 0 < c.multibulklen - 1 by omega) rfl
        simp only [if_neg hone, Client.session, hmode]
        rfl

/-! ### One request -/

/-- What a parser does with the client `c`: it takes the machine through a whole
request, which leaves the session `done argv`, or up to where it needs more input,
or to a protocol error. -/
inductive Parsed (env : Env W) (w : W) (log : List Event) (c : Client)
    (done : List Bytes → Session W) : Progress × Client → Prop
  | ready {c' : Client} :
    Transducer.Steps (Session.step env) (c.session w log, c.rest) (done c'.argv, c'.rest) →
    c'.multibulklen = 0 → c'.Bounds env → c'.flags = c.flags →
    c'.rest.length < c.rest.length → Parsed env w log c done (.ready, c')
  | more {c' : Client} :
    Transducer.Steps (Session.step env) (c.session w log, c.rest) (c'.session w log, c'.rest) →
    (c'.session w log).step env c'.rest = none → c'.Ok env → c'.flags = c.flags →
    Parsed env w log c done (.more, c')
  | error {c' : Client} {e : ProtocolError} :
    Transducer.Steps (Session.step env) (c.session w log, c.rest)
      ((c'.session w log).fail e, c'.rest) →
    c'.Ok env → c'.flags = c.flags → Parsed env w log c done (.error e, setProtocolError c')

/-- Some steps before the parser goes on. -/
theorem Parsed.head {log : List Event} {done : List Bytes → Session W} {r : Progress × Client}
    (hsteps : Transducer.Steps (Session.step env) (c.session w log, c.rest)
      (c'.session w log, c'.rest)) (hflags : c'.flags = c.flags) (h : Parsed env w log c' done r) :
    Parsed env w log c done r := by
  cases h with
  | ready hs hn hc' hf hlt =>
    exact .ready (hsteps.trans hs) hn hc' (hf.trans hflags)
      (hlt.trans_le (length_le_of_steps hsteps))
  | more hs hstuck hok hf => exact .more (hsteps.trans hs) hstuck hok (hf.trans hflags)
  | error hs hok hf => exact .error (hsteps.trans hs) hok (hf.trans hflags)

/-- Executing a request does not depend on how it was parsed. -/
theorem execute_session {log : List Event} (h : c'.flags = c.flags) (argv : List Bytes) :
    (c'.session w log).execute env argv = (c.session w log).execute env argv := by
  have hsession : c'.session w log = { c.session w log with mode := c'.mode } := by
    rw [Client.session, h]
    rfl
  rw [hsession]
  rfl

/-- The argument whose length is known, and the arguments after it. -/
theorem bulkLoop_payload (log : List Event) {n : ℕ} (hc : c.Ok env) (hn : c.multibulklen = n + 1)
    (hb : c.bulklen ≠ -1) (hhalt : halted env w c.flags = false)
    (ih : ∀ {c' : Client}, c'.Ok env → c'.multibulklen = n → 0 < n →
      halted env w c'.flags = false → ∃ r, bulkLoop env n c' = some r ∧
        Parsed env w log c' ((c'.session w log).execute env) r) :
    ∃ r, (readBulk c).bind (fun y => match y.1 with
        | .ready => bulkLoop env n y.2
        | p => some (p, y.2)) = some r ∧
      Parsed env w log c ((c.session w log).execute env) r := by
  rcases readBulk_spec log hc (by omega) hb hhalt with
    ⟨hread, hstuck⟩ | ⟨c', hread, hn', hb', hflags, hc', -, hlt, hstep⟩
  · rw [hread]
    exact ⟨_, rfl, .more (.refl _) hstuck hc rfl⟩
  · rw [hread, Option.bind_some]
    rcases n with _ | n
    · have hdone : c'.multibulklen = 0 := by omega
      rw [if_pos (by omega)] at hstep
      exact ⟨_, rfl, .ready (.single hstep) hdone hc' hflags hlt⟩
    · rw [if_neg (by omega)] at hstep
      have hok : c'.Ok env := ⟨hc', fun h0 => absurd h0 (by omega)⟩
      obtain ⟨r, hr, hparsed⟩ := ih hok (by omega) (by omega) (by rw [hflags]; exact hhalt)
      rw [funext (execute_session hflags)] at hparsed
      exact ⟨r, hr, hparsed.head (.single hstep) hflags⟩

/-- **The loop over the arguments** takes the machine as far as it gets. -/
theorem bulkLoop_spec (log : List Event) {n : ℕ} (hc : c.Ok env) (hn : c.multibulklen = n)
    (hpos : 0 < n) (hhalt : halted env w c.flags = false) :
    ∃ r, bulkLoop env n c = some r ∧
      Parsed env w log c ((c.session w log).execute env) r := by
  induction n generalizing c with
  | zero => exact absurd hpos (lt_irrefl 0)
  | succ n ih =>
    rw [bulkLoop]
    by_cases hb : c.bulklen = -1
    · rcases readBulkLen_spec log hc (by omega) hb hhalt with
        ⟨c', hread, hstep, hc', hb', hn', hflags⟩ | ⟨hread, hstuck⟩ | ⟨e, hread, hstep⟩
      · rw [hread, Option.bind_some]
        obtain ⟨r, hr, hparsed⟩ := bulkLoop_payload log hc' (by omega) hb'
          (by rw [hflags]; exact hhalt) ih
        rw [funext (execute_session hflags)] at hparsed
        exact ⟨r, hr, hparsed.head (.single hstep) hflags⟩
      · rw [hread]
        exact ⟨_, rfl, .more (.refl _) hstuck hc rfl⟩
      · rw [hread]
        exact ⟨_, rfl, .error (.single hstep) hc rfl⟩
    · rw [readBulkLen, if_pos hb, Option.bind_some]
      exact bulkLoop_payload log hc hn hb hhalt ih

/-- A client that can go on has no arguments before the first line of a request. -/
theorem Client.Ok.fresh (hc : c.Ok env) (hn : c.multibulklen = 0)
    (hhalt : halted env w c.flags = false) : c.bulklen = -1 ∧ c.argv = [] ∧ c.TypeFits := by
  rcases hc.idle hn with hheld | ⟨hargv, htype⟩
  · rw [halted_of_held hheld] at hhalt
    cases hhalt
  · exact ⟨hc.unknown hn, hargv, htype⟩

/-- The number of arguments is one step, and a request without any is complete. -/
theorem readMultibulkLen_spec (log : List Event) (hc : c.Ok env) (hn : c.multibulklen = 0)
    (htype : c.reqtype = .multibulk) (hhalt : halted env w c.flags = false) :
    (∃ c', readMultibulkLen env c = some (.ready, c') ∧ 0 < c'.multibulklen ∧ c'.Ok env ∧
      c'.flags = c.flags ∧
      (c.session w log).step env c.rest = some (c'.session w log, c'.rest)) ∨
    ∃ r, readMultibulkLen env c = some r ∧ (r.1 = .ready → r.2.multibulklen = 0 ∧ r.2.argv = []) ∧
      Parsed env w log c ((c.session w log).execute env) r := by
  obtain ⟨hb, hargv, hstar⟩ := hc.fresh hn hhalt
  have hstar : c.rest.head? = some 42 := by rwa [Client.TypeFits, htype] at hstar
  have hr : c.rest ≠ [] := by
    intro h
    rw [h] at hstar
    cases hstar
  have hstep := Session.step_start log hhalt hn hr
  rw [if_pos hstar, Session.countLine] at hstep
  rw [readMultibulkLen, if_neg (by simp [hargv]), Client.unparsed_eq hc.pos, Option.bind_some]
  rcases hline : findLine c.rest .tooBigMbulkCount with p | k
  · rw [hline] at hstep
    cases p with
    | ready => exact absurd hline (findLine_ne_ready _ _)
    | more => exact .inr ⟨_, rfl, fun _ => ⟨hn, hargv⟩, .more (.refl _) hstep hc rfl⟩
    | error e => exact .inr ⟨_, rfl, fun _ => ⟨hn, hargv⟩, .error (.single hstep) hc rfl⟩
  obtain ⟨-, hlen⟩ := findLine_eq_inr hline
  rw [hline] at hstep
  simp only at hstep ⊢
  rw [if_neg (by simp [hstar])]
  rcases hll : env.string2ll ((c.rest.drop 1).take (k - 1)) with _ | ll
  · rw [hll] at hstep
    exact .inr ⟨_, rfl, fun _ => ⟨hn, hargv⟩, .error (.single hstep) hc rfl⟩
  rw [hll] at hstep
  simp only at hstep ⊢
  by_cases hmax : 1048576 < ll
  · rw [if_pos hmax] at hstep ⊢
    exact .inr ⟨_, rfl, fun _ => ⟨hn, hargv⟩, .error (.single hstep) hc rfl⟩
  have hrest := c.length_rest
  have hpos : c.qbPos + (k + 2) ≤ c.querybuf.length := by omega
  have hadvance := c.rest_advance (k + 2)
  rw [if_neg hmax] at hstep ⊢
  by_cases hll0 : ll ≤ 0
  · rw [if_pos hll0, ← hadvance] at hstep
    rw [if_pos hll0]
    refine .inr ⟨_, rfl, fun _ => ⟨hn, hargv⟩, .ready ?_ hn
      ⟨hpos, .inl hb, fun h => absurd h hn.not_gt, fun _ => hb⟩ rfl ?_⟩
    · rw [hargv]
      exact .single hstep
    · show (c.querybuf.drop (c.qbPos + (k + 2))).length < c.rest.length
      rw [List.length_drop]
      omega
  · rw [if_neg hll0, ← hadvance] at hstep
    rw [if_neg hll0]
    have hlt : 0 < ll.toNat := by omega
    refine .inl ⟨_, rfl, hlt, ⟨⟨hpos, hc.bulklen, fun _ => ⟨htype, ?_⟩, fun _ => hb⟩,
      fun h0 => ?_⟩, rfl, ?_⟩
    · show c.argv.length + ll.toNat = ll.toNat
      rw [hargv, List.length_nil, Nat.zero_add]
    · exact absurd h0 hlt.ne'
    · rw [hstep, Client.session, Client.session, Client.mode_bulks (c := { c with
        qbPos := c.qbPos + (k + 2), multibulklen := ll.toNat, argvLen := ll.toNat }) hlt hb, hargv]
      rfl

/-- **`processMultibulkBuffer`** takes the machine through one request, as far as it
gets. -/
theorem processMultibulkBuffer_spec (log : List Event) (hc : c.Ok env)
    (htype : c.reqtype = .multibulk) (hhalt : halted env w c.flags = false) :
    ∃ r, processMultibulkBuffer env c = some r ∧
      Parsed env w log c ((c.session w log).execute env) r := by
  rw [processMultibulkBuffer]
  by_cases hn : c.multibulklen = 0
  · rw [if_pos hn]
    rcases readMultibulkLen_spec log hc hn htype hhalt with
      ⟨c', hread, hn', hc', hflags, hstep⟩ | ⟨⟨p, c'⟩, hread, hdone, hparsed⟩
    · obtain ⟨r, hr, hparsed⟩ :=
        bulkLoop_spec log hc' rfl hn' (by rw [hflags]; exact hhalt)
      rw [funext (execute_session hflags)] at hparsed
      refine ⟨r, ?_, hparsed.head (.single hstep) hflags⟩
      simp only [hread, Option.bind_some, if_neg hn'.ne', readBulks]
      exact hr
    · rw [hread, Option.bind_some]
      refine ⟨_, ?_, hparsed⟩
      cases p with
      | ready =>
        have hdone : c'.multibulklen = 0 := (hdone rfl).1
        simp only [if_pos hdone]
      | more => rfl
      | error e => rfl
  · rw [if_neg hn, readBulks, if_neg hn]
    exact bulkLoop_spec log hc rfl (by omega) hhalt

/-- The session after the line of an inline request. -/
def Session.runInline (env : Env W) (s : Session W) (argv : List Bytes) : Session W :=
  if isGopher env argv then s.serveGopher env argv else s.execute env argv

/-- **`processInlineBuffer`** takes the machine through one line. -/
theorem processInlineBuffer_spec (log : List Event) (hc : c.Ok env) (htype : c.reqtype = .inline)
    (hhalt : halted env w c.flags = false) :
    ∃ r, processInlineBuffer c = some r ∧
      Parsed env w log c ((c.session w log).runInline env) r := by
  have hn : c.multibulklen = 0 := by
    by_contra hne
    have := (hc.slots (Nat.pos_of_ne_zero hne)).1
    rw [htype] at this
    cases this
  obtain ⟨hb, hargv, hfits⟩ := hc.fresh hn hhalt
  obtain ⟨hr, hstar⟩ : c.rest ≠ [] ∧ c.rest.head? ≠ some 42 := by
    rwa [Client.TypeFits, htype] at hfits
  have hstep := Session.step_start log hhalt hn hr
  rw [if_neg hstar, Session.inlineLine] at hstep
  rw [processInlineBuffer, Client.unparsed_eq hc.pos, Option.map_some]
  refine ⟨_, rfl, ?_⟩
  rcases hk : strchr c.rest 10 with _ | k
  · rw [hk] at hstep
    by_cases hbig : protoInlineMaxSize < c.rest.length
    · rw [if_pos hbig] at hstep ⊢
      exact .error (.single hstep) hc rfl
    · rw [if_neg hbig] at hstep ⊢
      exact .more (.refl _) hstep hc rfl
  rw [hk] at hstep
  simp only at hstep ⊢
  have hquery : (if (decide (k ≠ 0) && decide (c.rest[k - 1]? = some 13)) = true then k - 1 else k)
      = querylen c.rest k := rfl
  rw [hquery]
  rcases hargs : sdssplitargs (c.rest.take (querylen c.rest k)) with _ | args
  · rw [hargs] at hstep
    exact .error (.single hstep) hc rfl
  rw [hargs] at hstep
  -- The line and its end, whatever it is, are `k + 1` bytes.
  have hline : querylen c.rest k +
      (if (decide (k ≠ 0) && decide (c.rest[k - 1]? = some 13)) = true then 2 else 1) = k + 1 := by
    rw [querylen]
    split_ifs with hcr
    · simp only [Bool.and_eq_true, decide_eq_true_eq] at hcr
      omega
    · rfl
  rw [hline]
  have hlt := strchr_lt hk
  have hrest := c.length_rest
  have hadvance := c.rest_advance (k + 1)
  rw [← hadvance] at hstep
  refine .ready (.single hstep) hn ⟨?_, .inl hb, fun h => absurd h hn.not_gt, fun _ => hb⟩ rfl ?_
  · show c.qbPos + (k + 1) ≤ c.querybuf.length
    omega
  · show (c.querybuf.drop (c.qbPos + (k + 1))).length < c.rest.length
    rw [List.length_drop]
    omega

end Parse

/-! ### The loop over the requests -/

/-- A command does not free the client, and either the client is reset after it or
it is going to be closed (`processCommand` returns `C_ERR` after QUIT). -/
structure Outcome.Settles (o : Outcome) : Prop where
  alive : o.freed = false
  reset : o.ok = true → (o.flags.blocked && o.btypeModule) = false
  closing : o.ok = false → o.flags.closeAfterReply = true ∨ o.flags.closeAsap = true

/-- Every command settles. -/
def Env.Settles (env : Env W) : Prop :=
  ∀ w f argv, (env.processCommand w f argv).2.Settles

/-- The flags that no command changes. -/
def Flags.SameLink (f f' : Flags) : Prop :=
  f'.pendingRead = f.pendingRead ∧ f'.master = f.master

section Turns

variable {env : Env W} {st : State W} {c : Client}

/-- A client after a request: nothing is known of the next one. -/
theorem Client.Ok.of_reset (hpos : c.qbPos ≤ c.querybuf.length) (asking : Bool) :
    (resetClient asking c).Ok env :=
  ⟨⟨hpos, .inl rfl, fun h => absurd h (lt_irrefl 0), fun _ => rfl⟩, fun _ => .inr ⟨rfl, trivial⟩⟩

/-- Other flags change nothing, if the client is held back with them. -/
theorem Client.Bounds.held {f : Flags} (hc : c.Bounds env) (hf : f.held = true) :
    Client.Ok env { c with flags := f } :=
  ⟨⟨hc.pos, hc.bulklen, hc.slots, hc.unknown⟩, fun _ => .inl hf⟩

theorem Client.afterCommand_spec {o : Outcome} (ho : o.Settles) (hc : c.Bounds env) :
    (c.afterCommand o).Ok env ∧ (c.afterCommand o).rest = c.rest ∧
      (c.multibulklen = 0 → (c.afterCommand o).mode = .start) ∧
      (c.afterCommand o).flags =
        if o.ok && !((o.flags.keeping c.flags).blocked && o.btypeModule)
        then (o.flags.keeping c.flags).reset o.asking else o.flags.keeping c.flags := by
  rw [Client.afterCommand]
  cases hok : o.ok with
  | true =>
    have hblock : ((o.flags.keeping c.flags).blocked && o.btypeModule) = false := ho.reset hok
    simp only [hblock, Bool.not_false, if_true, Bool.and_self]
    exact ⟨.of_reset (by exact hc.pos) _, rfl, fun _ => rfl, rfl⟩
  | false =>
    refine ⟨hc.held ?_, rfl, fun hn => Client.mode_start hn, rfl⟩
    simp only [Flags.held, Flags.keeping, Bool.or_eq_true]
    rcases ho.closing hok with h | h
    · exact .inl (.inr h)
    · exact .inr h

/-- Executing a complete request is executing it in the session. -/
theorem processCommandAndResetClient_spec (st : State W) (hsettle : env.Settles)
    (hc : st.client.Bounds env) (hn : st.client.multibulklen = 0) (hargv : st.client.argv ≠ []) :
    ∃ st', processCommandAndResetClient env st = (st', false) ∧ st'.client.Ok env ∧
      st'.client.rest = st.client.rest ∧ st.client.flags.SameLink st'.client.flags ∧
      st'.session = st.session.execute env st.client.argv := by
  have ho := hsettle st.world st.client.flags st.client.argv
  obtain ⟨hok, hrest, hmode, hflags⟩ := Client.afterCommand_spec ho hc
  refine ⟨_, by rw [processCommandAndResetClient, ho.alive], hok, hrest, ?_, ?_⟩
  · rw [hflags]
    split_ifs
    · exact ⟨rfl, rfl⟩
    · exact ⟨rfl, rfl⟩
  · rw [State.session, Client.session, hmode hn, hflags, Session.execute, if_neg hargv]
    rfl

/-- What a turn of the loop can do.  Every turn that is followed by another one
consumes something; in terms of the machine, a turn is some steps, and the last
one runs it dry.  With `CLIENT_PENDING_READ` the last request is left to the main
thread. -/
inductive TurnOk (env : Env W) (st : State W) : Turn W → Prop
  | again {st' : State W} :
    st'.client.Ok env → st.client.flags.SameLink st'.client.flags →
    st'.client.rest.length < st.client.rest.length →
    (st.client.flags.pendingRead = false → Transducer.Steps (Session.step env)
      (st.session, st.client.rest) (st'.session, st'.client.rest)) →
    TurnOk env st (.again st')
  | stop {st' : State W} :
    st'.client.Ok env → st.client.flags.SameLink st'.client.flags →
    (st.client.flags.pendingRead = false → Transducer.Drains (Session.step env)
      (st.session, st.client.rest) (st'.session, st'.client.rest)) →
    TurnOk env st (.stop st')

/-- The end of a turn with a complete request. -/
theorem runRequest_spec (hsettle : env.Settles)
    (hflags : c.flags = st.client.flags) (hn : c.multibulklen = 0) (hc : c.Bounds env)
    (hlt : c.rest.length < st.client.rest.length)
    (hsteps : Transducer.Steps (Session.step env) (st.session, st.client.rest)
      (st.session.execute env c.argv, c.rest)) :
    TurnOk env st (runRequest env { st with client := c }) := by
  have hexec : State.session { st with client := c } = { st.session with mode := .start } := by
    rw [State.session, Client.session, Client.mode_start hn, hflags]
    rfl
  rw [runRequest]
  by_cases hargv : c.argv = []
  · rw [if_pos hargv]
    refine .again (.of_reset hc.pos false) ⟨?_, ?_⟩ hlt fun _ => ?_
    · show c.flags.pendingRead = _
      rw [hflags]
    · show c.flags.master = _
      rw [hflags]
    · have hsession : State.session { st with client := resetClient false c }
          = st.session.execute env c.argv := by
        rw [Session.execute, if_pos hargv, State.session, Client.session, resetClient, hflags]
        rfl
      rw [hsession]
      exact hsteps
  rw [if_neg hargv]
  by_cases hread : c.flags.pendingRead = true
  · rw [if_pos hread]
    refine .stop (hc.held ?_) ?_ ?_
    · simp [Flags.held]
    · rw [← hflags]
      exact ⟨rfl, rfl⟩
    · intro h
      rw [← hflags, hread] at h
      cases h
  · rw [if_neg hread]
    obtain ⟨st', hrun, hok, hrest, hlink, hsession⟩ :=
      processCommandAndResetClient_spec { st with client := c } hsettle hc hn hargv
    rw [hrun]
    simp only [hflags] at hlink
    refine .again hok hlink (by rw [hrest]; exact hlt) fun _ => ?_
    rw [hsession, hrest, hexec]
    exact hsteps

/-- The end of a turn with a request in Gopher mode. -/
theorem serveGopher_spec (hflags : c.flags = st.client.flags) (hpos : c.qbPos ≤ c.querybuf.length)
    (hsteps : Transducer.Steps (Session.step env) (st.session, st.client.rest)
      (st.session.serveGopher env c.argv, c.rest)) :
    TurnOk env st (.stop (serveGopher env { st with client := c })) := by
  have hsession : st.session.serveGopher env c.argv
      = (serveGopher env { st with client := c }).session := by
    rw [Session.serveGopher, State.session, Client.session, ← hflags]
    rfl
  rw [hsession] at hsteps
  refine .stop ((Client.Ok.of_reset hpos false).toBounds.held (by simp [Flags.held])) ?_
    fun _ => ⟨hsteps, ?_⟩
  · rw [← hflags]
    exact ⟨rfl, rfl⟩
  · apply Session.step_of_halted
    exact halted_of_held (by simp [Flags.held, State.session, Client.session, serveGopher]) _

/-- A parser stopped before the end of a request. -/
theorem Parsed.turn {done : List Bytes → Session W} {p : Progress} {c' : Client}
    (hflags : c.flags = st.client.flags) (hsession : c.session st.world st.log = st.session)
    (hrest : c.rest = st.client.rest) (h : Parsed env st.world st.log c done (p, c'))
    (hready : p ≠ .ready) : TurnOk env st (stopTurn { st with client := c' } p) := by
  cases h with
  | ready => exact absurd rfl hready
  | more hsteps hstuck hok hf =>
    rw [hsession, hrest] at hsteps
    refine .stop hok ?_ fun _ => ⟨hsteps, hstuck⟩
    rw [← hflags, ← hf]
    exact ⟨rfl, rfl⟩
  | @error c₁ e hsteps hok hf =>
    rw [hsession, hrest] at hsteps
    refine .stop (hok.toBounds.held (by simp [Flags.held])) ?_ fun _ => ⟨hsteps, ?_⟩
    · rw [← hflags, ← hf]
      exact ⟨rfl, rfl⟩
    · apply Session.step_of_halted
      exact halted_of_held
        (by simp [Flags.held, State.session, Client.session, Networking.setProtocolError]) _

/-- Whether the type of the request is set or not, the session is the same. -/
theorem Client.Ok.setReqtype (hc : c.Ok env) (hhalt : halted env w c.flags = false)
    (hr : c.rest ≠ []) : (c.setReqtype c.rest).Ok env ∧ (c.setReqtype c.rest).reqtype ≠ .unknown ∧
      (c.setReqtype c.rest).flags = c.flags ∧ (c.setReqtype c.rest).rest = c.rest ∧
      (c.setReqtype c.rest).mode = c.mode := by
  rw [Client.setReqtype]
  by_cases hunknown : c.reqtype = .unknown
  · rw [if_pos hunknown]
    have hn : c.multibulklen = 0 := by
      by_contra hne
      have := (hc.slots (Nat.pos_of_ne_zero hne)).1
      rw [hunknown] at this
      cases this
    obtain ⟨hb, hargv, -⟩ := hc.fresh hn hhalt
    refine ⟨⟨⟨hc.pos, hc.bulklen, fun h => absurd h hn.not_gt, hc.unknown⟩,
      fun _ => .inr ⟨hargv, ?_⟩⟩, ?_, rfl, rfl, rfl⟩
    · by_cases hstar : c.rest.head? = some 42
      · simp only [if_pos hstar, Client.TypeFits]
        exact hstar
      · simp only [if_neg hstar, Client.TypeFits]
        exact ⟨hr, hstar⟩
    · simp only
      split_ifs
      · exact ReqType.noConfusion
      · exact ReqType.noConfusion
  · rw [if_neg hunknown]
    exact ⟨hc, hunknown, rfl, rfl, rfl⟩

/-- **A turn of the loop** is defined, keeps the invariant, and is some steps of the
machine. -/
theorem inputTurn_spec (hsettle : env.Settles) (hc : st.client.Ok env)
    (hr : st.client.rest ≠ []) : ∃ t, inputTurn env st = some t ∧ TurnOk env st t := by
  rw [inputTurn]
  by_cases hhalt : halted env st.world st.client.flags = true
  · rw [if_pos hhalt]
    exact ⟨_, rfl, .stop hc ⟨rfl, rfl⟩ fun _ => ⟨.refl _, Session.step_of_halted hhalt _⟩⟩
  rw [if_neg hhalt, Client.unparsed_eq hc.pos, Option.bind_some]
  rw [Bool.not_eq_true] at hhalt
  obtain ⟨hok, hknown, hflags, hrest, hmode⟩ := hc.setReqtype hhalt hr
  simp only
  obtain ⟨c, hceq⟩ : ∃ c, st.client.setReqtype st.client.rest = c := ⟨_, rfl⟩
  rw [hceq] at hok hknown hflags hrest hmode ⊢
  have hsession : c.session st.world st.log = st.session := by
    rw [State.session, Client.session, Client.session, hflags, hmode]
  rw [← hflags] at hhalt
  rcases htype : c.reqtype with _ | _ | _
  · exact absurd htype hknown
  · -- An inline request.
    obtain ⟨⟨p, c'⟩, hparse, hparsed⟩ :=
      processInlineBuffer_spec st.log hok htype hhalt
    simp only [hparse, Option.map_some]
    refine ⟨_, rfl, ?_⟩
    cases p with
    | ready =>
      cases hparsed with
      | ready hsteps hn hc' hf hlt =>
        rw [hsession, hrest] at hsteps
        rw [hrest] at hlt
        by_cases hgopher : isGopher env c'.argv = true
        · rw [Session.runInline, if_pos hgopher] at hsteps
          simp only [if_pos hgopher]
          exact serveGopher_spec (hf.trans hflags) hc'.pos hsteps
        · rw [Session.runInline, if_neg hgopher] at hsteps
          simp only [if_neg hgopher]
          exact runRequest_spec hsettle (hf.trans hflags) hn hc' hlt hsteps
    | more => exact hparsed.turn hflags hsession hrest Progress.noConfusion
    | error e => exact hparsed.turn hflags hsession hrest Progress.noConfusion
  · obtain ⟨⟨p, c'⟩, hparse, hparsed⟩ :=
      processMultibulkBuffer_spec st.log hok htype hhalt
    simp only [hparse, Option.map_some]
    refine ⟨_, rfl, ?_⟩
    cases p with
    | ready =>
      cases hparsed with
      | ready hsteps hn hc' hf hlt =>
        rw [hsession, hrest] at hsteps
        rw [hrest] at hlt
        exact runRequest_spec hsettle (hf.trans hflags) hn hc' hlt hsteps
    | more => exact hparsed.turn hflags hsession hrest Progress.noConfusion
    | error e => exact hparsed.turn hflags hsession hrest Progress.noConfusion

/-- What the loop leaves: the invariant, and a machine that has run dry. -/
structure LoopOk (env : Env W) (st st' : State W) : Prop where
  ok : st'.client.Ok env
  link : st.client.flags.SameLink st'.client.flags
  drains : st.client.flags.pendingRead = false → Transducer.Drains (Session.step env)
    (st.session, st.client.rest) (st'.session, st'.client.rest)

theorem Client.rest_eq_nil (h : c.querybuf.length ≤ c.qbPos) : c.rest = [] :=
  List.drop_eq_nil_of_le h

theorem Client.rest_ne_nil (h : ¬c.querybuf.length ≤ c.qbPos) : c.rest ≠ [] := by
  intro hnil
  have := c.length_rest
  rw [hnil, List.length_nil] at this
  omega

theorem inputLoop_end (fuel : ℕ) (hend : st.client.querybuf.length ≤ st.client.qbPos) :
    inputLoop env fuel st = some (st, true) := by
  rw [inputLoop.eq_def]
  exact if_pos hend

/-- What all turns keep holds after the loop. -/
theorem inputLoop_keeps {I : State W → Prop} {J : State W × Bool → Prop}
    (hend : ∀ {st}, I st → J (st, true)) (hagain : ∀ {st s}, I st →
      st.client.qbPos < st.client.querybuf.length → inputTurn env st = some (.again s) → I s)
    (hstop : ∀ {st s}, I st → st.client.qbPos < st.client.querybuf.length →
      inputTurn env st = some (.stop s) →
      J (s, true))
    (hgone : ∀ {st s}, I st → st.client.qbPos < st.client.querybuf.length →
      inputTurn env st = some (.gone s) →
      J (s, false))
    {fuel : ℕ} {x : State W × Bool} (h : I st) (hrun : inputLoop env fuel st = some x) : J x := by
  induction fuel generalizing st with
  | zero =>
    rw [inputLoop] at hrun
    split at hrun
    · exact Option.some.inj hrun ▸ hend h
    · cases hrun
  | succ fuel ih =>
    rw [inputLoop] at hrun
    split at hrun
    · exact Option.some.inj hrun ▸ hend h
    · have hlt := not_le.mp ‹_›
      obtain ⟨t, ht, hrun⟩ := Option.bind_eq_some_iff.mp hrun
      cases t with
      | again s => exact ih (hagain h hlt ht) hrun
      | stop s => exact Option.some.inj hrun ▸ hstop h hlt ht
      | gone s => exact Option.some.inj hrun ▸ hgone h hlt ht

/-- **The loop** ends, whatever the client sent, and runs the machine dry. -/
theorem inputLoop_spec (hsettle : env.Settles) {fuel : ℕ} (hc : st.client.Ok env)
    (hfuel : st.client.rest.length ≤ fuel) :
    ∃ st', inputLoop env fuel st = some (st', true) ∧ LoopOk env st st' := by
  induction fuel generalizing st with
  | zero =>
    have hend : st.client.querybuf.length ≤ st.client.qbPos := by
      have := st.client.length_rest
      omega
    refine ⟨st, inputLoop_end 0 hend, hc, ⟨rfl, rfl⟩, fun _ => ⟨.refl _, ?_⟩⟩
    rw [Client.rest_eq_nil hend, Session.step_nil]
  | succ fuel ih =>
    by_cases hend : st.client.querybuf.length ≤ st.client.qbPos
    · refine ⟨st, inputLoop_end _ hend, hc, ⟨rfl, rfl⟩, fun _ => ⟨.refl _, ?_⟩⟩
      rw [Client.rest_eq_nil hend, Session.step_nil]
    · rw [inputLoop, if_neg hend]
      obtain ⟨t, ht, hturn⟩ := inputTurn_spec hsettle hc (Client.rest_ne_nil hend)
      simp only [ht, Option.bind_some]
      cases hturn with
      | @again st₁ hok hlink hlt hsteps =>
        obtain ⟨st', hloop, hok', hlink', hdrains⟩ := ih hok (by omega)
        refine ⟨st', hloop, hok', ⟨hlink'.1.trans hlink.1, hlink'.2.trans hlink.2⟩, fun hread => ?_⟩
        have hdrains := hdrains (hlink.1.trans hread)
        exact ⟨(hsteps hread).trans hdrains.steps, hdrains.stuck⟩
      | @stop st₁ hok hlink hdrains => exact ⟨st₁, rfl, hok, hlink, hdrains⟩

/-- Trimming the buffer changes nothing but the position in it. -/
theorem Client.trim_spec (hpos : c.qbPos ≤ c.querybuf.length) :
    c.trim = { c with querybuf := c.rest, qbPos := 0 } := by
  rw [Client.trim]
  split_ifs with h
  · rw [sdsrange_neg_one c.querybuf hpos]
    rfl
  · rw [not_not] at h
    rw [Client.rest, h, List.drop_zero, ← h]

theorem Client.Ok.trim (hc : c.Ok env) : c.trim.Ok env := by
  rw [Client.trim_spec hc.pos]
  exact ⟨⟨Nat.zero_le _, hc.bulklen, hc.slots, hc.unknown⟩, hc.idle⟩

/-- **`processInputBuffer`** returns, keeps the invariant, and leaves in the buffer
what the machine cannot use yet. -/
theorem processInputBuffer_spec (st : State W) (hsettle : env.Settles) (hc : st.client.Ok env) :
    ∃ st', processInputBuffer env st = some st' ∧ LoopOk env st st' ∧ st'.client.qbPos = 0 := by
  obtain ⟨st', hloop, hok, hlink, hdrains⟩ := inputLoop_spec hsettle hc le_rfl
  rw [Client.length_rest] at hloop
  refine ⟨{ st' with client := st'.client.trim }, ?_, ⟨hok.trim, ?_, fun hread => ?_⟩, ?_⟩
  · rw [processInputBuffer, hloop]
    rfl
  all_goals rw [Client.trim_spec hok.pos]
  · exact hlink
  · exact hdrains hread

end Turns

end Networking
