/-
Decoding undoes encoding.

`encode` writes a list of commands in the multibulk format.  `Coded` relates a
session in the middle of such a stream to the commands that are still to come:

* `Coded.step` — the machine decodes it piece by piece;
* `Coded.fits`, `Coded.short` — its lines are short, and a client that waits for
  more holds at most one argument of it;
* `decode_encode` — reading such a stream in reads of any sizes executes the
  commands and leaves nothing;
* `inline_eq_multibulk` — the same arguments quoted in an inline request.
-/
import DecomposeRedis.QueryReads

namespace Networking

open Sds Transducer

variable {W : Type} {env : Env W}

/-! ### The multibulk format -/

/-- A line with a number. -/
def numberLine (b : UInt8) (n : ℕ) : Bytes := b :: (decimal n ++ [13, 10])

/-- The arguments of a command, each after its length. -/
def encodeArgs (args : List Bytes) : Bytes :=
  args.flatMap fun a => numberLine 36 a.length ++ (a ++ [13, 10])

/-- Commands, each after the number of its arguments. -/
def encode (cmds : List (List Bytes)) : Bytes :=
  cmds.flatMap fun argv => numberLine 42 argv.length ++ encodeArgs argv

/-- The environment reads the numbers that fit into a `long long`, which the limit of
the length of an argument does. -/
structure Env.ReadsDecimal (env : Env W) : Prop where
  string2ll : ∀ n : ℕ, n < 2 ^ 63 → env.string2ll (decimal n) = some (n : ℤ)
  protoMaxBulkLen : env.protoMaxBulkLen < 2 ^ 63

/-! ### Lines of such a stream -/

theorem strchr_append_cons {s : Bytes} {c : UInt8} (hs : ∀ b ∈ s, b ≠ c ∧ b ≠ 0) (u : Bytes) :
    strchr (s ++ c :: u) c = some s.length := by
  induction s with
  | nil => simp [strchr]
  | cons b s ih =>
    obtain ⟨hc, h0⟩ := hs b List.mem_cons_self
    rw [List.cons_append, strchr, if_neg hc, if_neg h0,
      ih fun b' hb' => hs b' (List.mem_cons_of_mem _ hb')]
    rfl

theorem strchr_numberLine {b : UInt8} (hb : b ≠ 13 ∧ b ≠ 0) (n : ℕ) (u : Bytes) :
    strchr (numberLine b n ++ u) 13 = some ((decimal n).length + 1) := by
  have hline : numberLine b n ++ u = (b :: decimal n) ++ 13 :: 10 :: u := by
    simp [numberLine]
  rw [hline, strchr_append_cons]
  · rfl
  · intro x hx
    rcases List.mem_cons.mp hx with rfl | hx
    · exact hb
    · obtain ⟨hlow, -⟩ := decimal_digit n x hx
      constructor
      · rintro rfl
        exact absurd hlow (by decide)
      · rintro rfl
        exact absurd hlow (by decide)

theorem findLine_numberLine {b : UInt8} (hb : b ≠ 13 ∧ b ≠ 0) (n : ℕ) (u : Bytes)
    (e : ProtocolError) :
    findLine (numberLine b n ++ u) e = .inr ((decimal n).length + 1) := by
  rw [findLine, strchr_numberLine hb]
  simp only
  rw [if_neg]
  simp only [numberLine, List.cons_append, List.length_cons, List.length_append, List.length_nil]
  omega

theorem take_numberLine (b : UInt8) (n : ℕ) (u : Bytes) :
    ((numberLine b n ++ u).drop 1).take ((decimal n).length + 1 - 1) = decimal n := by
  simp [numberLine]

theorem drop_numberLine (b : UInt8) (n : ℕ) (u : Bytes) :
    (numberLine b n ++ u).drop ((decimal n).length + 1 + 2) = u := by
  have hlen : (decimal n).length + 1 + 2 = (numberLine b n).length := by
    simp [numberLine]
  rw [hlen, List.drop_left]

variable {args : List Bytes} {cmds : List (List Bytes)} {st : State W} {socket : Bytes}

section Steps

variable {s : Session W} {u : Bytes}

/-- The machine reads the number of arguments. -/
theorem Session.step_count (henv : env.ReadsDecimal) (hmode : s.mode = .start)
    (hhalt : halted env s.world s.flags = false) {n : ℕ} (hpos : 0 < n) (hmax : n ≤ 1048576) :
    s.step env (numberLine 42 n ++ u) = some ({ s with mode := .bulks n [] }, u) := by
  rw [Session.step, if_neg (by simp [numberLine]), if_neg (by simp [hhalt]), hmode]
  rw [if_pos (by rfl), Session.countLine, findLine_numberLine (by decide)]
  simp only [take_numberLine, drop_numberLine, henv.string2ll n (by omega)]
  rw [if_neg (by omega), if_neg (by omega), Int.toNat_natCast]

/-- The machine reads the length of an argument. -/
theorem Session.step_length (henv : env.ReadsDecimal) {n : ℕ}
    (hmode : s.mode = .bulks n args) (hhalt : halted env s.world s.flags = false) {len : ℕ}
    (hmax : (len : ℤ) ≤ env.protoMaxBulkLen) :
    s.step env (numberLine 36 len ++ u) = some ({ s with mode := .payload n len args }, u) := by
  have hlt := henv.protoMaxBulkLen
  rw [Session.step, if_neg (by simp [numberLine]), if_neg (by simp [hhalt]), hmode]
  simp only
  rw [Session.bulkLine, findLine_numberLine (by decide)]
  simp only [take_numberLine, drop_numberLine, henv.string2ll len (by omega)]
  rw [if_neg (by simp [numberLine]), if_neg (by omega), Int.toNat_natCast]

/-- The machine reads an argument. -/
theorem Session.step_arg {n : ℕ} {a : Bytes}
    (hmode : s.mode = .payload n a.length args) (hhalt : halted env s.world s.flags = false) :
    s.step env (a ++ [13, 10] ++ u)
      = some (if n = 1 then s.execute env (args ++ [a])
          else { s with mode := .bulks (n - 1) (args ++ [a]) }, u) := by
  have hlen : a.length + 2 = (a ++ [13, 10] : Bytes).length := by simp
  have htake : (a ++ [13, 10] ++ u).take a.length = a := by simp
  rw [Session.step, if_neg (by simp), if_neg (by simp [hhalt]), hmode]
  simp only
  rw [Session.bulk, if_neg (by simp), htake, hlen, List.drop_left]

end Steps

/-! ### In the middle of a stream -/

/-- An argument that the server takes. -/
def Env.Accepts (env : Env W) (a : Bytes) : Prop :=
  (a.length : ℤ) ≤ env.protoMaxBulkLen ∧ a.length + 2 ≤ env.clientMaxQuerybufLen

instance (env : Env W) (a : Bytes) : Decidable (env.Accepts a) :=
  inferInstanceAs (Decidable (_ ∧ _))

/-- A command that can be sent. -/
structure Env.Sendable (env : Env W) (argv : List Bytes) : Prop where
  pos : argv ≠ []
  count : argv.length ≤ 1048576
  args : ∀ a ∈ argv, env.Accepts a

/-- What is left of a stream of commands, and the commands that are still to be
executed, the current one first. -/
inductive Coded (env : Env W) : Mode → Bytes → List (List Bytes) → Prop
  | start {cmds : List (List Bytes)} :
    (∀ argv ∈ cmds, env.Sendable argv) → Coded env .start (encode cmds) cmds
  | bulks {args more : List Bytes} {cmds : List (List Bytes)} :
    more ≠ [] → (∀ a ∈ more, env.Accepts a) → (∀ argv ∈ cmds, env.Sendable argv) →
    Coded env (.bulks more.length args) (encodeArgs more ++ encode cmds) ((args ++ more) :: cmds)
  | payload {args more : List Bytes} {a : Bytes} {cmds : List (List Bytes)} :
    env.Accepts a → (∀ a' ∈ more, env.Accepts a') → (∀ argv ∈ cmds, env.Sendable argv) →
    Coded env (.payload (more.length + 1) a.length args)
      (a ++ [13, 10] ++ (encodeArgs more ++ encode cmds)) ((args ++ a :: more) :: cmds)

theorem encode_cons (argv : List Bytes) (cmds : List (List Bytes)) :
    encode (argv :: cmds) = numberLine 42 argv.length ++ (encodeArgs argv ++ encode cmds) := by
  simp [encode]

theorem encodeArgs_cons (a : Bytes) (more : List Bytes) (u : Bytes) :
    encodeArgs (a :: more) ++ u
      = numberLine 36 a.length ++ (a ++ [13, 10] ++ (encodeArgs more ++ u)) := by
  simp [encodeArgs]

section Coded

variable {s : Session W} {m : Mode} {u : Bytes} {cmds : List (List Bytes)}

/-- The first piece of the stream, and what is left after it. -/
inductive Coded.Piece (env : Env W) : Mode → Bytes → List (List Bytes) → Prop
  | count {n : ℕ} {u : Bytes} {cmds : List (List Bytes)} :
    0 < n → n ≤ 1048576 → Coded env (.bulks n []) u cmds →
    Piece env .start (numberLine 42 n ++ u) cmds
  | length {n len : ℕ} {args : List Bytes} {u : Bytes} {cmds : List (List Bytes)} :
    (len : ℤ) ≤ env.protoMaxBulkLen → Coded env (.payload n len args) u cmds →
    Piece env (.bulks n args) (numberLine 36 len ++ u) cmds
  | last {a : Bytes} {args : List Bytes} {u : Bytes} {cmds : List (List Bytes)} :
    env.Accepts a → Coded env .start u cmds →
    Piece env (.payload 1 a.length args) (a ++ [13, 10] ++ u) ((args ++ [a]) :: cmds)
  | arg {n : ℕ} {a : Bytes} {args : List Bytes} {u : Bytes} {cmds : List (List Bytes)} :
    env.Accepts a → Coded env (.bulks (n + 1) (args ++ [a])) u cmds →
    Piece env (.payload (n + 2) a.length args) (a ++ [13, 10] ++ u) cmds

theorem Coded.piece (h : Coded env m u cmds) (hu : u ≠ []) : Coded.Piece env m u cmds := by
  cases h with
  | start hcmds =>
    rcases cmds with _ | ⟨argv, cmds⟩
    · exact absurd rfl hu
    obtain ⟨hpos, hcount, hargs⟩ := hcmds argv List.mem_cons_self
    rw [encode_cons]
    refine .count (List.length_pos_of_ne_nil hpos) hcount ?_
    exact @Coded.bulks W env [] argv cmds hpos hargs
      fun argv' h' => hcmds argv' (List.mem_cons_of_mem _ h')
  | @bulks args more cmds hpos hargs hcmds =>
    rcases more with _ | ⟨a, more⟩
    · exact absurd rfl hpos
    rw [encodeArgs_cons]
    refine .length (hargs a List.mem_cons_self).1 ?_
    exact .payload (hargs a List.mem_cons_self)
      (fun a' h' => hargs a' (List.mem_cons_of_mem _ h')) hcmds
  | @payload args more a cmds ha hargs hcmds =>
    rcases more with _ | ⟨a', more⟩
    · exact .last ha (.start hcmds)
    · have hmore := @Coded.bulks W env (args ++ [a]) (a' :: more) cmds
        (List.cons_ne_nil a' more) hargs hcmds
      rw [List.append_assoc] at hmore
      exact .arg ha hmore

/-- A stream with nothing left has nothing to be executed. -/
theorem Coded.nil (h : Coded env m [] cmds) : m = .start ∧ cmds = [] := by
  generalize hu : ([] : Bytes) = u at h
  cases h with
  | start =>
    rcases cmds with _ | ⟨argv, cmds⟩
    · exact ⟨rfl, rfl⟩
    · rw [encode_cons] at hu
      cases hu
  | @bulks args more cmds hpos =>
    rcases more with _ | ⟨a, more⟩
    · exact absurd rfl hpos
    · rw [encodeArgs_cons] at hu
      cases hu
  | payload => simp at hu

/-- When everything is executed, nothing is left of the stream. -/
theorem Coded.of_nil (h : Coded env m u []) : u = [] := by
  generalize hcmds : ([] : List (List Bytes)) = cmds at h
  cases h with
  | start =>
    rw [← hcmds]
    rfl
  | bulks => cases hcmds
  | payload => cases hcmds

/-- **The machine decodes the stream** piece by piece: a step reads on, or executes
the command that comes next. -/
theorem Coded.step (henv : env.ReadsDecimal) (h : Coded env s.mode u cmds) (hu : u ≠ [])
    (hhalt : halted env s.world s.flags = false) :
    ∃ s' u' cmds', s.step env u = some (s', u') ∧ Coded env s'.mode u' cmds' ∧
      (s' = { s with mode := s'.mode } ∧ cmds' = cmds ∨
        ∃ argv, argv ≠ [] ∧ cmds = argv :: cmds' ∧ s' = s.execute env argv) := by
  have hpiece := h.piece hu
  generalize hmode : s.mode = m at hpiece
  cases hpiece with
  | count hpos hmax hnext =>
    exact ⟨_, _, _, Session.step_count henv hmode hhalt hpos hmax, hnext, .inl ⟨rfl, rfl⟩⟩
  | length hmax hnext =>
    exact ⟨_, _, _, Session.step_length henv hmode hhalt hmax, hnext, .inl ⟨rfl, rfl⟩⟩
  | @last a args u cmds _ hnext =>
    have hstep := Session.step_arg (u := u) hmode hhalt
    rw [if_pos rfl] at hstep
    refine ⟨_, _, cmds, hstep, ?_, .inr ⟨args ++ [a], by simp, rfl, rfl⟩⟩
    rw [Session.execute_mode]
    exact hnext
  | @arg n a args u cmds _ hnext =>
    have hstep := Session.step_arg (u := u) hmode hhalt
    exact ⟨_, _, _, hstep, hnext, .inl ⟨rfl, rfl⟩⟩

/-- The lines of the stream are short. -/
theorem Coded.line_le {k : ℕ} (henv : env.ReadsDecimal) (hline : LineOf env m u k)
    (h : Coded env m u cmds) : k ≤ 20 := by
  have hmax := henv.protoMaxBulkLen
  have hdecimal : ∀ {n : ℕ}, n < 2 ^ 63 → (decimal n).length + 1 ≤ 20 := fun hn =>
    Nat.succ_le_succ (length_decimal_le hn)
  -- Nothing follows the end of the stream.
  have hne : u ≠ [] := List.ne_nil_of_length_pos (Nat.zero_lt_of_lt hline.lt_length)
  induction hline generalizing cmds with
  | inlineHere hstar hk =>
    cases h.piece hne with
    | count => exact absurd rfl hstar
  | inlineNext hstar hk =>
    cases h.piece hne with
    | count => exact absurd rfl hstar
  | countHere hstar hk =>
    cases h.piece hne with
    | count hpos hcount hnext =>
      rw [strchr_numberLine (by decide)] at hk
      obtain rfl := Option.some.inj hk
      exact hdecimal (by omega)
  | countNext hstar hk hll _ hrest ih =>
    cases h.piece hne with
    | count hpos hcount hnext =>
      rw [strchr_numberLine (by decide)] at hk
      obtain rfl := Option.some.inj hk
      rw [take_numberLine, henv.string2ll _ (by omega)] at hll
      obtain rfl := Option.some.inj hll
      rw [drop_numberLine, if_neg (by omega), Int.toNat_natCast] at ih hrest
      exact ih hnext (List.ne_nil_of_length_pos (Nat.zero_lt_of_lt hrest.lt_length))
  | bulkHere hk =>
    cases h.piece hne with
    | length hlen hnext =>
      rw [strchr_numberLine (by decide)] at hk
      obtain rfl := Option.some.inj hk
      exact hdecimal (by omega)
  | bulkNext hk _ hll _ _ hrest ih =>
    cases h.piece hne with
    | length hlen hnext =>
      rw [strchr_numberLine (by decide)] at hk
      obtain rfl := Option.some.inj hk
      rw [take_numberLine, henv.string2ll _ (by omega)] at hll
      obtain rfl := Option.some.inj hll
      rw [drop_numberLine, Int.toNat_natCast] at ih hrest
      exact ih hnext (List.ne_nil_of_length_pos (Nat.zero_lt_of_lt hrest.lt_length))
  | @payloadNext _ _ args _ _ hrest ih =>
    have hdrop : ∀ a v : Bytes, (a ++ [13, 10] ++ v).drop (a.length + 2) = v := by simp
    have htake : ∀ a v : Bytes, (a ++ [13, 10] ++ v).take a.length = a := by simp
    cases h.piece hne with
    | last _ hnext =>
      rw [if_pos rfl, hdrop] at ih hrest
      exact ih hnext (List.ne_nil_of_length_pos (Nat.zero_lt_of_lt hrest.lt_length))
    | arg _ hnext =>
      rw [if_neg (by omega), hdrop, htake] at ih hrest
      exact ih hnext (List.ne_nil_of_length_pos (Nat.zero_lt_of_lt hrest.lt_length))

theorem Coded.fits (henv : env.ReadsDecimal) (h : Coded env s.mode u cmds) : s.fits env u :=
  fun _ hline => (Coded.line_le henv hline h).trans (by decide)

/-- A client that waits for more holds a part of a line or of an argument. -/
theorem Coded.short (henv : env.ReadsDecimal) {r y : Bytes} (h : Coded env s.mode (r ++ y) cmds)
    (hhalt : halted env s.world s.flags = false) (hstuck : s.step env r = none) :
    r.length ≤ 22 ∨ ∃ n len args, s.mode = .payload n len args ∧ r.length < len + 2 ∧
      len + 2 ≤ env.clientMaxQuerybufLen := by
  have hmax := henv.protoMaxBulkLen
  by_cases hne : r ++ y = []
  · rw [(List.append_eq_nil_iff.mp hne).1]
    exact .inl (Nat.zero_le _)
  -- With the whole first piece the machine would go on.
  have hpart : ∀ {l z : Bytes}, r ++ y = l ++ z → (∀ r', (s.step env (l ++ r')).isSome) →
      r.length < l.length := by
    intro l z heq hsome
    by_contra hle
    obtain ⟨r', rfl⟩ : l <+: r :=
      List.prefix_of_prefix_length_le ⟨z, heq.symm⟩ (List.prefix_append r y) (not_lt.mp hle)
    have := hsome r'
    rw [hstuck] at this
    cases this
  have hlength : ∀ {b : UInt8} {n : ℕ}, n < 2 ^ 63 → (numberLine b n).length ≤ 22 := by
    intro b n hn
    have := length_decimal_le hn
    simp only [numberLine, List.length_cons, List.length_append, List.length_nil]
    omega
  have hpiece := h.piece hne
  generalize hu : r ++ y = u at hpiece
  generalize hmode : s.mode = m at hpiece
  cases hpiece with
  | count hpos hcount =>
    refine .inl ((hpart hu fun r' => ?_).le.trans (hlength (by omega)))
    rw [Session.step_count henv hmode hhalt hpos hcount]
    rfl
  | length hlen =>
    refine .inl ((hpart hu fun r' => ?_).le.trans (hlength (by omega)))
    rw [Session.step_length henv hmode hhalt hlen]
    rfl
  | last ha =>
    refine .inr ⟨_, _, _, rfl, ?_, ha.2⟩
    have := hpart hu fun r' => by rw [Session.step_arg hmode hhalt]; rfl
    simpa using this
  | arg ha =>
    refine .inr ⟨_, _, _, rfl, ?_, ha.2⟩
    have := hpart hu fun r' => by rw [Session.step_arg hmode hhalt]; rfl
    simpa using this

end Coded

/-! ### Reading such a stream -/

/-- No command frees, blocks or closes the client, or pauses the clients. -/
structure Env.Calm (env : Env W) : Prop where
  settles : env.Settles
  paused : ∀ w f argv, env.clientsArePaused w = false →
    env.clientsArePaused (env.processCommand w f argv).1 = false
  blocked : ∀ w f argv, f.blocked = false → (env.processCommand w f argv).2.flags.blocked = false
  held : ∀ w f argv, f.held = false → (env.processCommand w f argv).2.flags.held = false

/-- A command after which the client goes on returns `C_OK`. -/
theorem Env.Calm.ok (h : env.Calm) (w : W) {f : Flags} (hf : f.held = false) (argv : List Bytes) :
    (env.processCommand w f argv).2.ok = true := by
  by_contra hok
  rw [Bool.not_eq_true] at hok
  have hheld := h.held w f argv hf
  simp only [Flags.held, Bool.or_eq_false_iff] at hheld
  rcases (h.settles w f argv).closing hok with hclose | hclose
  · rw [hheld.1.2] at hclose
    cases hclose
  · rw [hheld.2] at hclose
    cases hclose

/-- A session on the way through the stream of the commands `cmds`. -/
structure Decoding (env : Env W) (cmds : List (List Bytes)) (s : Session W) (u : Bytes) :
    Prop where
  paused : env.clientsArePaused s.world = false
  blocked : s.flags.blocked = false
  held : s.flags.held = false
  master : s.flags.master = false
  coded : ∃ left, Coded env s.mode u left ∧
    s.log ++ left.map Event.command = cmds.map Event.command

theorem Decoding.running {s : Session W} {u : Bytes}
    (h : Decoding env cmds s u) : halted env s.world s.flags = false := by
  have hheld := h.held
  simp only [Flags.held, Bool.or_eq_false_iff] at hheld
  simp only [halted, h.paused, h.blocked, h.master, hheld, Bool.and_false, Bool.or_self]

theorem Decoding.step (henv : env.ReadsDecimal) (hcalm : env.Calm)
    {s s' : Session W} {u u' : Bytes} (h : Decoding env cmds s u)
    (hstep : s.step env u = some (s', u')) : Decoding env cmds s' u' := by
  have hu : u ≠ [] := (Session.step_ne_none (by rw [hstep]; rfl)).1
  obtain ⟨left, hcoded, hlog⟩ := h.coded
  obtain ⟨s₁, u₁, left₁, hstep₁, hcoded₁, hcase⟩ := hcoded.step henv hu h.running
  obtain ⟨⟩ := hstep₁.symm.trans hstep
  rcases hcase with ⟨hsame, rfl⟩ | ⟨argv, hne, rfl, rfl⟩
  · rw [hsame]
    exact ⟨h.paused, h.blocked, h.held, h.master, left₁, hcoded₁, hlog⟩
  · have hblocked := hcalm.blocked s.world s.flags argv h.blocked
    have hexec : s.execute env argv =
        { world := (env.processCommand s.world s.flags argv).1
          flags := ((env.processCommand s.world s.flags argv).2.flags.keeping s.flags).reset
            (env.processCommand s.world s.flags argv).2.asking
          log := s.log ++ [.command argv]
          mode := .start } := by
      rw [Session.execute, if_neg hne]
      simp only [hcalm.ok s.world h.held argv, Flags.keeping, hblocked, Bool.false_and,
        Bool.not_false, Bool.and_self, if_true]
    rw [hexec] at hcoded₁ ⊢
    refine ⟨hcalm.paused _ _ _ h.paused, hblocked, hcalm.held _ _ _ h.held, h.master,
      left₁, hcoded₁, ?_⟩
    rw [List.append_assoc]
    exact hlog

theorem readlen_le (c : Client) : readlen c ≤ protoIobufLen := by
  rw [readlen]
  split_ifs with h
  · omega
  · exact le_rfl

theorem readlen_pos (c : Client) : 0 < readlen c := by
  rw [readlen]
  split_ifs with h
  · omega
  · decide

/-- A read does not go beyond the end of a large argument. -/
theorem readlen_le_of_payload {c : Client} {n len : ℕ} (hc : c.Bounds env)
    (hmode : c.mode = .payload n len args) (hbig : protoMbulkBigArg ≤ len)
    (hlt : c.querybuf.length < len + 2) : c.querybuf.length + readlen c ≤ len + 2 := by
  rw [Client.mode] at hmode
  split_ifs at hmode with hn hb
  obtain ⟨-, rfl, -⟩ := Mode.payload.inj hmode
  obtain ⟨htype, -⟩ := hc.slots (Nat.pos_of_ne_zero hn)
  have hrange : 0 ≤ c.bulklen := (hc.bulklen.resolve_left hb).1
  rw [readlen]
  split_ifs with h
  · omega
  · simp only [not_and, not_lt] at h
    have := h htype hn hb (by omega) (by omega)
    omega

/-- A read from a socket that holds the bytes `x.2`: `read(2)` gives no more than it
is asked for, and no more than there is. -/
def feed (env : Env W) (x : State W × Bytes) (size : ℕ) : Option (State W × Bytes) :=
  let data := x.2.take (min size (readlen x.1.client))
  if data = [] then (readQueryFromClient env x.1 .eagain).map (·, x.2)
  else (readQueryFromClient env x.1 (.bytes data)).map (·, x.2.drop data.length)

/-- A client between two reads of the stream of the commands `cmds`, of which the
bytes `socket` are still to be read. -/
structure Reading (env : Env W) (cmds : List (List Bytes)) (st : State W) (socket : Bytes) :
    Prop where
  between : st.Between env
  stuck : st.session.step env st.client.rest = none
  decoding : Decoding env cmds st.session (st.client.rest ++ socket)

/-- The buffer never holds more than a large argument, or than a small one and
what was read after it. -/
theorem Reading.length_le (henv : env.ReadsDecimal)
    (hlimit : protoMbulkBigArg + protoIobufLen ≤ env.clientMaxQuerybufLen)
    (h : Reading env cmds st socket) :
    st.client.rest.length + readlen st.client ≤ env.clientMaxQuerybufLen := by
  have hiobuf := readlen_le st.client
  obtain ⟨left, hcoded, -⟩ := h.decoding.coded
  rw [protoMbulkBigArg] at hlimit
  rcases hcoded.short henv h.decoding.running h.stuck with hle | ⟨n, len, args, hmode, hlt, hmax⟩
  · omega
  · by_cases hbig : protoMbulkBigArg ≤ len
    · have hrest : st.client.rest = st.client.querybuf := by
        rw [Client.rest, h.between.pos, List.drop_zero]
      rw [hrest] at hlt ⊢
      exact (readlen_le_of_payload h.between.ok.toBounds hmode hbig hlt).trans hmax
    · rw [protoMbulkBigArg] at hbig
      omega

theorem Reading.feed (henv : env.ReadsDecimal) (hcalm : env.Calm)
    (hlimit : protoMbulkBigArg + protoIobufLen ≤ env.clientMaxQuerybufLen)
    (h : Reading env cmds st socket) (size : ℕ) :
    ∃ st' socket', feed env (st, socket) size = some (st', socket') ∧ Reading env cmds st' socket' ∧
      (0 < size → socket'.length ≤ socket.length - 1) := by
  rw [Networking.feed]
  obtain ⟨data, hdata⟩ : ∃ data, socket.take (min size (readlen st.client)) = data := ⟨_, rfl⟩
  simp only [hdata]
  by_cases hne : data = []
  · rw [if_pos hne]
    refine ⟨st, socket, rfl, h, fun hsize => ?_⟩
    have hpos := readlen_pos st.client
    rw [hne, List.take_eq_nil_iff] at hdata
    rcases hdata with hzero | rfl
    · omega
    · exact Nat.zero_le _
  · rw [if_neg hne]
    have hsocket : data ++ socket.drop data.length = socket := by
      rw [← hdata, List.length_take, List.take_eq_take_min, List.take_append_drop]
    have hlen : data.length ≤ readlen st.client := by
      rw [← hdata, List.length_take]
      exact (min_le_left _ _).trans (min_le_right _ _)
    have hle := h.length_le henv hlimit
    obtain ⟨st', hread, hst', hdrains⟩ := readQueryFromClient_spec hcalm.settles h.between hne
      (by rw [List.length_append]; omega)
    rw [hread]
    refine ⟨st', _, rfl, ⟨hst', hdrains.stuck, ?_⟩, fun _ => ?_⟩
    · -- The steps on what has arrived are steps on the whole stream.
      have hdecoding := h.decoding
      rw [← hsocket, ← List.append_assoc] at hdecoding
      obtain ⟨left, hcoded, -⟩ := hdecoding.coded
      have hsteps := (hdrains.steps.append (monotone_step env) (socket.drop data.length)
        (hcoded.fits henv)).1
      exact hsteps.invariant (I := Decoding env cmds)
        (fun _ _ _ _ hI hstep => hI.step henv hcalm hstep) hdecoding
    · have := List.length_pos_of_ne_nil hne
      rw [List.length_drop]
      omega

theorem Reading.feeds (henv : env.ReadsDecimal) (hcalm : env.Calm)
    (hlimit : protoMbulkBigArg + protoIobufLen ≤ env.clientMaxQuerybufLen) (sizes : List ℕ)
    (h : Reading env cmds st socket) :
    ∃ st' socket', sizes.foldlM (Networking.feed env) (st, socket) = some (st', socket') ∧
      Reading env cmds st' socket' ∧
      ((∀ n ∈ sizes, 0 < n) → socket'.length ≤ socket.length - sizes.length) := by
  induction sizes generalizing st socket with
  | nil => exact ⟨st, socket, rfl, h, fun _ => Nat.le_refl _⟩
  | cons n sizes ih =>
    obtain ⟨st₁, socket₁, hfeed, h₁, hless⟩ := h.feed henv hcalm hlimit n
    obtain ⟨st', socket', hrun, h', hless'⟩ := ih h₁
    refine ⟨st', socket', ?_, h', fun hpos => ?_⟩
    · rw [List.foldlM_cons, hfeed]
      exact hrun
    · have h0 := hless (hpos n List.mem_cons_self)
      have hs := hless' fun m hm => hpos m (List.mem_cons_of_mem _ hm)
      rw [List.length_cons]
      omega

/-- When everything is read, everything is executed. -/
theorem Reading.done (henv : env.ReadsDecimal) (h : Reading env cmds st []) :
    st.log = cmds.map .command ∧ st.client.querybuf = [] ∧ st.client.qbPos = 0 := by
  obtain ⟨left, hcoded, hlog⟩ := h.decoding.coded
  have hrest : st.client.rest = [] := by
    by_contra hne
    rw [List.append_nil] at hcoded
    obtain ⟨s', u', left', hstep, -⟩ := hcoded.step henv hne h.decoding.running
    rw [h.stuck] at hstep
    cases hstep
  have hpos := h.between.pos
  rw [hrest, List.nil_append] at hcoded
  obtain ⟨-, rfl⟩ := hcoded.nil
  refine ⟨?_, ?_, hpos⟩
  · rw [List.map_nil, List.append_nil] at hlog
    exact hlog
  · rwa [Client.rest, hpos, List.drop_zero] at hrest

/-- **Decoding undoes encoding.**  Commands that the server takes, sent one after the
other, are executed in order whatever the sizes of the reads are, and nothing is
left; in particular an argument is the same whether it is copied out of the buffer
or the buffer is handed over. -/
theorem decode_encode (henv : env.ReadsDecimal) (hcalm : env.Calm)
    (hlimit : protoMbulkBigArg + protoIobufLen ≤ env.clientMaxQuerybufLen)
    {cmds : List (List Bytes)} (hcmds : ∀ argv ∈ cmds, env.Sendable argv) {w : W}
    (hw : env.clientsArePaused w = false) (sizes : List ℕ) :
    (∃ st socket, sizes.foldlM (feed env) (.fresh w, encode cmds) = some (st, socket) ∧
      (socket = [] →
        st.log = cmds.map .command ∧ st.client.querybuf = [] ∧ st.client.qbPos = 0) ∧
      ((∀ n ∈ sizes, 0 < n) → (encode cmds).length ≤ sizes.length → socket = [])) ∧
    ∀ (c : Client) (len : ℕ), c.qbPos ≤ c.querybuf.length → c.bulklen = len →
      len + 2 ≤ c.rest.length → c.argv.length < c.argvLen →
      ∃ c', readBulk c = some (.ready, c') ∧ c'.argv = c.argv ++ [c.rest.take len] ∧
        c'.rest = c.rest.drop (len + 2) := by
  constructor
  · have hstart : Reading env cmds (.fresh w) (encode cmds) :=
      ⟨State.fresh_between w, Session.step_nil env _, hw, rfl, rfl, rfl, cmds, .start hcmds, rfl⟩
    obtain ⟨st, socket, hrun, hreading, hless⟩ := hstart.feeds henv hcalm hlimit sizes
    refine ⟨st, socket, hrun, ?_, fun hpos hlen => ?_⟩
    · rintro rfl
      exact hreading.done henv
    · have := hless hpos
      exact List.eq_nil_of_length_eq_zero (by omega)
  · intro c len hpos hlen hlong hslot
    obtain ⟨buf, pos, hread, -, hdrop⟩ := readBulk_eq hpos hlen hlong hslot
    exact ⟨_, hread, rfl, hdrop⟩

theorem quietServer_readsDecimal : quietServer.ReadsDecimal := by
  refine ⟨fun n _ => ?_, by decide⟩
  rw [quietServer]
  simp only
  rw [if_pos ⟨decimal_ne_nil n, decimal_digit n⟩, ofDigits_decimal]

theorem quietServer_calm : quietServer.Calm :=
  ⟨quietServer_settles, fun _ _ _ _ => rfl, fun _ _ _ h => h, fun _ _ _ h => h⟩

/-- Two commands, one with an empty argument and one that looks like the protocol, in
reads of five bytes. -/
theorem decode_encode_five :
    ∃ st socket,
      (List.replicate 80 5).foldlM (feed quietServer)
        (.fresh (), encode [[[71, 69, 84], []], [[42, 49, 13, 10]]]) = some (st, socket) ∧
      (socket = [] → st.log = [[[71, 69, 84], []], [[42, 49, 13, 10]]].map .command ∧
        st.client.querybuf = [] ∧ st.client.qbPos = 0) ∧
      ((∀ n ∈ List.replicate 80 5, 0 < n) →
        (encode [[[71, 69, 84], []], [[42, 49, 13, 10]]]).length ≤ (List.replicate 80 5).length →
        socket = []) := by
  refine (decode_encode quietServer_readsDecimal quietServer_calm (by decide) ?_ rfl _).1
  intro argv hargv
  rcases List.mem_pair.mp hargv with rfl | rfl
  · exact ⟨by decide, by decide, by decide⟩
  · exact ⟨by decide, by decide, by decide⟩

/-- With a limit on the query buffer that is smaller than a read, a client is closed
before its command is parsed. -/
theorem decode_encode_limit :
    ([16384].foldlM (feed { quietServer with clientMaxQuerybufLen := 8 })
        (.fresh (), encode [[[120]]])).map
      (fun x => (x.1.log, x.1.client.querybuf.length, x.1.client.flags.closeAsap, x.2))
      = some ([], 11, true, []) := by
  decide +kernel

/-! ### Inline requests -/

/-- The machine takes the quoted arguments as one line. -/
theorem Session.step_reprLine {w : W} (hw : env.clientsArePaused w = false)
    (hne : args ≠ []) (hgopher : isGopher env (args.filter (· ≠ [])) = false) :
    (Session.fresh w).step env (reprLine args ++ [10])
      = some ((Session.fresh w).execute env (args.filter (· ≠ [])), []) := by
  have hprint := isprint_of_mem_reprLine args
  have hhead : (reprLine args ++ [10]).head? = some 34 := by
    rcases args with _ | ⟨a, _ | ⟨a', args⟩⟩
    · exact absurd rfl hne
    · simp [reprLine, sdscatrepr]
    · rw [reprLine_cons_cons]
      simp [sdscatrepr]
  have hnewline : strchr (reprLine args ++ [10]) 10 = some (reprLine args).length := by
    refine strchr_append_cons (fun b hb => ⟨?_, ?_⟩) []
    · rintro rfl
      cases hprint 10 hb
    · rintro rfl
      cases hprint 0 hb
  -- The byte before the newline is printable, so the line does not end with `\r\n`.
  have hquery : querylen (reprLine args ++ [10]) (reprLine args).length
      = (reprLine args).length := by
    rw [querylen, if_neg]
    simp only [Bool.and_eq_true, decide_eq_true_eq]
    rintro ⟨hpos, hcr⟩
    rw [List.getElem?_append_left (by omega)] at hcr
    cases hprint 13 (List.mem_of_getElem? hcr)
  have hhalt : halted env w Flags.none = false := by simp [halted, hw, Flags.none]
  rw [Session.step, if_neg (by simp), if_neg (by simp [Session.fresh, hhalt])]
  simp only [Session.fresh]
  rw [hhead, if_neg (by decide), Session.inlineLine, hnewline]
  simp only [hquery, List.take_left, sdssplitargs_reprLine, hgopher, Bool.false_eq_true, if_false]
  simp

/-- The machine takes a command in the multibulk format. -/
theorem Drains.encode (henv : env.ReadsDecimal) {w : W} (hw : env.clientsArePaused w = false)
    (hargs : env.Sendable args) {b : Session W × Bytes}
    (h : Drains (Session.step env) (Session.fresh w, encode [args]) b) :
    b.1 = (Session.fresh w).execute env args := by
  have hhalt : halted env w Flags.none = false := by simp [halted, hw, Flags.none]
  have hstart : Coded env .start (Networking.encode [args]) [args] :=
    .start fun argv hargv => List.mem_singleton.mp hargv ▸ hargs
  -- Either the command is still to come or it is executed.
  have hinv := h.steps.invariant (I := fun s u =>
    Coded env s.mode u [args] ∧ s = { Session.fresh w with mode := s.mode } ∨
      Coded env s.mode u [] ∧ s = (Session.fresh w).execute env args)
    (fun s u s' u' hI hstep => ?_) (.inl ⟨hstart, rfl⟩)
  · rcases hinv with ⟨hcoded, hsame⟩ | ⟨-, hdone⟩
    · have hne : b.2 ≠ [] := by
        intro hnil
        rw [hnil] at hcoded
        cases hcoded.nil.2
      obtain ⟨s', u', left, hstep, -⟩ := hcoded.step henv hne (by rw [hsame]; exact hhalt)
      rw [h.stuck] at hstep
      cases hstep
    · exact hdone
  · have hne := (Session.step_ne_none (by rw [hstep]; rfl)).1
    rcases hI with ⟨hcoded, hsame⟩ | ⟨hcoded, -⟩
    · obtain ⟨s₁, u₁, left, hstep₁, hcoded₁, hcase⟩ :=
        hcoded.step henv hne (by rw [hsame]; exact hhalt)
      obtain ⟨⟩ := hstep₁.symm.trans hstep
      rcases hcase with ⟨hmode, rfl⟩ | ⟨argv, -, heq, rfl⟩
      · refine .inl ⟨hcoded₁, ?_⟩
        rw [hmode, hsame]
      · obtain ⟨rfl, rfl⟩ := List.cons.inj heq
        refine .inr ⟨hcoded₁, ?_⟩
        rw [hsame]
        rfl
    · exact absurd hcoded.of_nil hne

theorem length_le_encode {a : Bytes} (ha : a ∈ args) :
    a.length + 2 ≤ (encode [args]).length := by
  have hle : (numberLine 36 a.length ++ (a ++ [13, 10])).length ≤ (encodeArgs args).length := by
    rw [encodeArgs, List.length_flatMap]
    exact List.single_le_sum (by simp) _ (List.mem_map.mpr ⟨a, ha, rfl⟩)
  simp only [encode, List.flatMap_cons, List.flatMap_nil, List.append_nil, List.length_append,
    List.length_cons, List.length_nil] at hle ⊢
  omega

theorem Session.execute_log {s : Session W} (argv : List Bytes) :
    (s.execute env argv).log = if argv = [] then s.log else s.log ++ [.command argv] := by
  rw [Session.execute]
  split_ifs
  · rfl
  · rfl

/-- Without its empty arguments a request is the same only if it has none. -/
theorem dropped_eq_iff {args : List Bytes} (hne : args ≠ []) :
    (if args.filter (· ≠ []) = [] then [] else [Event.command (args.filter (· ≠ []))])
        = [.command args] ↔
      ∀ a ∈ args, a ≠ [] := by
  have hself : args.filter (· ≠ []) = args ↔ ∀ a ∈ args, a ≠ [] := by
    rw [List.filter_eq_self]
    simp only [decide_eq_true_eq]
  rw [← hself]
  by_cases hnil : args.filter (· ≠ []) = []
  · rw [if_pos hnil, hnil]
    exact iff_of_false (List.cons_ne_nil _ _).symm hne.symm
  · rw [if_neg hnil, List.singleton_inj, Event.command.injEq]

/-- **The two request formats carry the same arguments**, but for empty ones, which an
inline request drops; without any other there is nothing to execute.  So they do the same
if and only if no argument is empty. -/
theorem inline_eq_multibulk (henv : env.ReadsDecimal) (hsettle : env.Settles) {w : W}
    (hw : env.clientsArePaused w = false) (args : List Bytes) (hne : args ≠ [])
    (hgopher : isGopher env (args.filter (· ≠ [])) = false)
    (hline : (reprLine args ++ [10]).length ≤ protoInlineMaxSize)
    (hargs : ∀ a ∈ args, (a.length : ℤ) ≤ env.protoMaxBulkLen)
    (chunks chunks' : List Bytes) (hpos : ∀ data ∈ chunks, data ≠ [])
    (hpos' : ∀ data ∈ chunks', data ≠ [])
    (hinline : chunks.flatten = reprLine args ++ [10]) (hmulti : chunks'.flatten = encode [args])
    (hlen : chunks.flatten.length ≤ env.clientMaxQuerybufLen)
    (hlen' : chunks'.flatten.length ≤ env.clientMaxQuerybufLen) :
    ∃ st st', readAll env (.fresh w) chunks = some st ∧ readAll env (.fresh w) chunks' = some st' ∧
      st.log = (if args.filter (· ≠ []) = [] then [] else [.command (args.filter (· ≠ []))]) ∧
      st'.log = [.command args] ∧ (st.log = st'.log ↔ ∀ a ∈ args, a ≠ []) := by
  have hcount : args.length ≤ 1048576 := by
    have := length_le_reprLine args
    rw [List.length_append, protoInlineMaxSize] at hline
    omega
  have hsend : env.Sendable args := by
    refine ⟨hne, hcount, fun a ha => ⟨hargs a ha, ?_⟩⟩
    rw [hmulti] at hlen'
    exact (length_le_encode ha).trans hlen'
  have hcoded : Coded env (Session.fresh w).mode (encode [args]) [args] :=
    .start fun argv hargv => List.mem_singleton.mp hargv ▸ hsend
  obtain ⟨st, hrun, hdrains⟩ := readAll_drains hsettle w hpos hlen fun k hk =>
    hk.lt_length.le.trans (by rw [hinline]; exact hline)
  obtain ⟨st', hrun', hdrains'⟩ := readAll_drains hsettle w hpos' hlen'
    (by rw [hmulti]; exact hcoded.fits henv)
  have hlog : st.log
      = (if args.filter (· ≠ []) = [] then [] else [.command (args.filter (· ≠ []))]) := by
    have hstep := Session.step_reprLine hw hne hgopher
    rw [hinline] at hdrains
    have heq := hdrains.unique ⟨.single hstep, Session.step_nil env _⟩
    have hlast : st.log = _ := congrArg (fun x => x.1.log) heq
    rw [hlast]
    exact Session.execute_log _
  have hlog' : st'.log = [.command args] := by
    rw [hmulti] at hdrains'
    have hsession := Drains.encode henv hw hsend hdrains'
    have hlast : st'.log = _ := congrArg Session.log hsession
    rw [hlast, Session.execute_log, if_neg hne]
    rfl
  refine ⟨st, st', hrun, hrun', hlog, hlog', ?_⟩
  rw [hlog, hlog']
  exact dropped_eq_iff hne

/-- A quoted argument with a blank and a newline. -/
theorem inline_eq_multibulk_quoted :
    ∃ st st', readAll quietServer (.fresh ()) [reprLine [[71, 69, 84], [97, 32, 10]], [10]]
      = some st ∧
      readAll quietServer (.fresh ()) [encode [[[71, 69, 84], [97, 32, 10]]]] = some st' ∧
      st.log = [.command [[71, 69, 84], [97, 32, 10]]] ∧
      st'.log = [.command [[71, 69, 84], [97, 32, 10]]] ∧
      (st.log = st'.log ↔ ∀ a ∈ [[71, 69, 84], [97, 32, 10]], a ≠ ([] : Bytes)) :=
  inline_eq_multibulk quietServer_readsDecimal quietServer_settles rfl
    [[71, 69, 84], [97, 32, 10]] (by decide) rfl (by decide +kernel) (by decide)
    [reprLine [[71, 69, 84], [97, 32, 10]], [10]] [encode [[[71, 69, 84], [97, 32, 10]]]]
    (by decide +kernel) (by decide +kernel) (by decide +kernel) (by decide +kernel)
    (by decide +kernel) (by decide +kernel)

/-- An inline request drops an empty argument. -/
theorem inline_drops_empty :
    (readAll quietServer (.fresh ()) [reprLine [[71, 69, 84], []] ++ [10]]).map (·.log)
        = some [.command [[71, 69, 84]]] ∧
      (readAll quietServer (.fresh ()) [encode [[[71, 69, 84], []]]]).map (·.log)
        = some [.command [[71, 69, 84], []]] := by
  decide +kernel

end Networking
