/-
The request protocol, as a machine that reads a stream.

A session is what is known of a client between two pieces of a request: the
machine consumes a whole line or a whole argument at a time and executes a
command as soon as its last argument is there.  It has no buffer, so nothing in
it depends on how the bytes arrive, except that a line without an end is given
up once it is longer than `PROTO_INLINE_MAX_SIZE`.  In a stream whose lines are
not longer (`Session.fits`), more input changes no step (`monotone_step`).
-/
import DecomposeRedis.QueryBuffer
import DecomposeRedis.Transducer

namespace Networking

open Sds

/-- How much of the current request is known: nothing, or `n` more arguments with
those read so far, the length of the next one being known or not. -/
inductive Mode where
  | start
  | bulks (n : ℕ) (args : List Bytes)
  | payload (n len : ℕ) (args : List Bytes)

/-- A client between two pieces of a request. -/
structure Session (W : Type) where
  world : W
  flags : Flags
  log : List Event
  mode : Mode

/-! ### The machine -/

section

variable {W : Type} (env : Env W)

/-- A protocol error. -/
def Session.fail (s : Session W) (e : ProtocolError) : Session W :=
  { s with
    flags := { s.flags with closeAfterReply := true }
    log := s.log ++ [.protocolError e.reply e.errstr] }

/-- A complete request; without arguments it is skipped. -/
def Session.execute (s : Session W) (argv : List Bytes) : Session W :=
  if argv = [] then { s with flags := s.flags.reset false, mode := .start }
  else
    let x := env.processCommand s.world s.flags argv
    let f := x.2.flags.keeping s.flags
    { world := x.1
      flags := if x.2.ok && !(f.blocked && x.2.btypeModule) then f.reset x.2.asking else f
      log := s.log ++ [.command argv]
      mode := .start }

/-- A request in Gopher mode, after which the client is closed. -/
def Session.serveGopher (s : Session W) (argv : List Bytes) : Session W :=
  { world := env.processGopherRequest s.world argv
    flags := { s.flags.reset false with closeAfterReply := true }
    log := s.log ++ [.gopher argv]
    mode := .start }

/-- The length of a line that ends with the `\n` at position `newline`, without the
`\r` before it. -/
def querylen (r : Bytes) (newline : ℕ) : ℕ :=
  if newline ≠ 0 && r[newline - 1]? = some 13 then newline - 1 else newline

/-- An inline request: a line of arguments, empty ones being dropped. -/
def Session.inlineLine (s : Session W) (r : Bytes) : Option (Session W × Bytes) :=
  match strchr r 10 with
  | none => if protoInlineMaxSize < r.length then some (s.fail .tooBigInline, r) else none
  | some newline =>
    match sdssplitargs (r.take (querylen r newline)) with
    | none => some (s.fail .unbalancedQuotes, r)
    | some args =>
      let argv := args.filter (· ≠ [])
      some (if isGopher env argv then s.serveGopher env argv else s.execute env argv,
        r.drop (newline + 1))

/-- The line with the number of arguments. -/
def Session.countLine (s : Session W) (r : Bytes) : Option (Session W × Bytes) :=
  match findLine r .tooBigMbulkCount with
  | .inl (.error e) => some (s.fail e, r)
  | .inl _ => none
  | .inr newline =>
    match env.string2ll ((r.drop 1).take (newline - 1)) with
    | none => some (s.fail .invalidMultibulkLength, r)
    | some ll =>
      if 1048576 < ll then some (s.fail .invalidMultibulkLength, r)
      else
        some (if ll ≤ 0 then s.execute env [] else { s with mode := .bulks ll.toNat [] },
          r.drop (newline + 2))

/-- The line with the length of an argument. -/
def Session.bulkLine (s : Session W) (n : ℕ) (args : List Bytes) (r : Bytes) :
    Option (Session W × Bytes) :=
  match findLine r .tooBigBulkCount with
  | .inl (.error e) => some (s.fail e, r)
  | .inl _ => none
  | .inr newline =>
    if r.head? ≠ some 36 then some (s.fail (.expectedDollar (r.headD 0)), r)
    else
      match env.string2ll ((r.drop 1).take (newline - 1)) with
      | none => some (s.fail .invalidBulkLength, r)
      | some ll =>
        if ll < 0 ∨ env.protoMaxBulkLen < ll then some (s.fail .invalidBulkLength, r)
        else some ({ s with mode := .payload n ll.toNat args }, r.drop (newline + 2))

/-- An argument and the two bytes after it. -/
def Session.bulk (s : Session W) (n len : ℕ) (args : List Bytes) (r : Bytes) :
    Option (Session W × Bytes) :=
  if r.length < len + 2 then none
  else
    let args := args ++ [r.take len]
    some (if n = 1 then s.execute env args else { s with mode := .bulks (n - 1) args },
      r.drop (len + 2))

/-- One step of the machine on the bytes `r` that have arrived. -/
def Session.step (s : Session W) (r : Bytes) : Option (Session W × Bytes) :=
  if r = [] then none
  else if halted env s.world s.flags then none
  else
    match s.mode with
    | .start => if r.head? = some 42 then s.countLine env r else s.inlineLine env r
    | .bulks n args => s.bulkLine env n args r
    | .payload n len args => s.bulk env n len args r

/-! ### The lines of a stream -/

/-- In the stream `u`, read from the given mode on, there is a line with `k` bytes
before its end (`\n` for an inline request, `\r` for the others).  The stream is
read up to the first protocol error. -/
inductive LineOf : Mode → Bytes → ℕ → Prop
  | inlineHere {u : Bytes} {k : ℕ} :
    u.head? ≠ some 42 → strchr u 10 = some k → LineOf .start u k
  | inlineNext {u : Bytes} {k k' : ℕ} {args : List Bytes} :
    u.head? ≠ some 42 → strchr u 10 = some k → sdssplitargs (u.take (querylen u k)) = some args →
    LineOf .start (u.drop (k + 1)) k' → LineOf .start u k'
  | countHere {u : Bytes} {k : ℕ} :
    u.head? = some 42 → strchr u 13 = some k → LineOf .start u k
  | countNext {u : Bytes} {k k' : ℕ} {ll : ℤ} :
    u.head? = some 42 → strchr u 13 = some k →
    env.string2ll ((u.drop 1).take (k - 1)) = some ll → ll ≤ 1048576 →
    LineOf (if ll ≤ 0 then .start else .bulks ll.toNat []) (u.drop (k + 2)) k' →
    LineOf .start u k'
  | bulkHere {n : ℕ} {args : List Bytes} {u : Bytes} {k : ℕ} :
    strchr u 13 = some k → LineOf (.bulks n args) u k
  | bulkNext {n : ℕ} {args : List Bytes} {u : Bytes} {k k' : ℕ} {ll : ℤ} :
    strchr u 13 = some k → u.head? = some 36 →
    env.string2ll ((u.drop 1).take (k - 1)) = some ll → 0 ≤ ll → ll ≤ env.protoMaxBulkLen →
    LineOf (.payload n ll.toNat args) (u.drop (k + 2)) k' → LineOf (.bulks n args) u k'
  | payloadNext {n len : ℕ} {args : List Bytes} {u : Bytes} {k' : ℕ} :
    LineOf (if n = 1 then .start else .bulks (n - 1) (args ++ [u.take len])) (u.drop (len + 2)) k' →
    LineOf (.payload n len args) u k'

/-- No line of the stream is longer than `PROTO_INLINE_MAX_SIZE`. -/
def Session.fits (s : Session W) (u : Bytes) : Prop :=
  ∀ k, LineOf env s.mode u k → k ≤ protoInlineMaxSize

end

/-! ### Lines when more input arrives -/

variable {k : ℕ} {r s y : Bytes} {c : UInt8} {e e' : ProtocolError}

theorem strchr_lt (h : strchr s c = some k) : k < s.length := by
  induction s generalizing k with
  | nil => cases h
  | cons b s ih =>
    rw [strchr] at h
    split_ifs at h
    · cases h
      exact Nat.zero_lt_succ _
    · obtain ⟨j, hj, rfl⟩ := Option.map_eq_some_iff.mp h
      exact Nat.succ_lt_succ (ih hj)

theorem strchr_append (h : strchr s c = some k) (y : Bytes) :
    strchr (s ++ y) c = some k := by
  induction s generalizing k with
  | nil => cases h
  | cons b s ih =>
    rw [List.cons_append, strchr]
    rw [strchr] at h
    split_ifs at h ⊢
    · exact h
    · obtain ⟨j, hj, rfl⟩ := Option.map_eq_some_iff.mp h
      rw [ih hj]
      rfl

/-- A line that ends only in what arrives later is as long as what is there. -/
theorem le_of_strchr_append (h : strchr s c = none) (h' : strchr (s ++ y) c = some k) :
    s.length ≤ k := by
  induction s generalizing k with
  | nil => exact Nat.zero_le k
  | cons b s ih =>
    rw [List.cons_append, strchr] at h'
    rw [strchr] at h
    split_ifs at h h'
    obtain ⟨j, hj, rfl⟩ := Option.map_eq_some_iff.mp h'
    exact Nat.succ_le_succ (ih (Option.map_eq_none_iff.mp h) hj)

theorem findLine_eq_inr (h : findLine r e = .inr k) :
    strchr r 13 = some k ∧ k + 2 ≤ r.length := by
  rw [findLine] at h
  rcases hk : strchr r 13 with _ | j
  · rw [hk] at h
    cases h
  · rw [hk] at h
    simp only at h
    split_ifs at h with hlen
    obtain rfl : j = k := Sum.inr.inj h
    exact ⟨rfl, by omega⟩

theorem findLine_append (h : findLine r e = .inr k) (y : Bytes) : findLine (r ++ y) e = .inr k := by
  obtain ⟨hk, hlen⟩ := findLine_eq_inr h
  rw [findLine, strchr_append hk]
  simp only
  rw [if_neg]
  rw [List.length_append]
  omega

theorem findLine_eq_error (h : findLine r e = .inl (.error e')) :
    e' = e ∧ strchr r 13 = none ∧ protoInlineMaxSize < r.length := by
  rw [findLine] at h
  rcases hk : strchr r 13 with _ | j
  · rw [hk] at h
    by_cases hbig : protoInlineMaxSize < r.length
    · simp only [if_pos hbig] at h
      exact ⟨(Progress.error.inj (Sum.inl.inj h)).symm, rfl, hbig⟩
    · simp only [if_neg hbig] at h
      cases h
  · rw [hk] at h
    simp only at h
    split_ifs at h
    cases h

/-- A line that is given up stays so, if no line of the stream is too long. -/
theorem findLine_error_append (h : findLine r e = .inl (.error e'))
    (hfit : ∀ k, strchr (r ++ y) 13 = some k → k ≤ protoInlineMaxSize) :
    findLine (r ++ y) e = .inl (.error e') := by
  obtain ⟨rfl, hk, hbig⟩ := findLine_eq_error h
  rcases hk' : strchr (r ++ y) 13 with _ | k
  · have hlen : protoInlineMaxSize < (r ++ y).length := by
      rw [List.length_append]
      omega
    simp only [findLine, hk', if_pos hlen]
  · have h1 := hfit k hk'
    have h2 := le_of_strchr_append hk hk'
    omega

theorem findLine_ne_ready (r : Bytes) (e : ProtocolError) : findLine r e ≠ .inl .ready := by
  intro h
  rw [findLine] at h
  split at h
  · split_ifs at h <;> cases h
  · split_ifs at h
    cases h

/-- The bytes of a line that has arrived do not change. -/
theorem take_line_append (h : k + 2 ≤ r.length) :
    ((r ++ y).drop 1).take (k - 1) = (r.drop 1).take (k - 1) := by
  rw [List.drop_append_of_le_length (by omega), List.take_append_of_le_length]
  rw [List.length_drop]
  omega

theorem querylen_le (r : Bytes) (k : ℕ) : querylen r k ≤ k := by
  rw [querylen]
  split_ifs
  · exact Nat.sub_le k 1
  · exact le_rfl

theorem headD_append_of_ne_nil (h : r ≠ []) (y : Bytes) :
    (r ++ y).headD 0 = r.headD 0 := by
  rcases r with _ | ⟨b, r⟩
  · exact absurd rfl h
  · rfl

/-! ### What a step leaves -/

section Mono

variable {W : Type} {env : Env W} {s s' : Session W} {r r' y : Bytes} {args : List Bytes}

/-- What a step leaves of the stream: after a protocol error everything, otherwise
less, and no line that was not there before. -/
def Shrinks (env : Env W) (s : Session W) (r : Bytes) (s' : Session W) (r' : Bytes) : Prop :=
  (∃ e, s' = s.fail e ∧ r' = r) ∨
    r'.length < r.length ∧ ∀ k, LineOf env s'.mode r' k → LineOf env s.mode r k

theorem shrinks_drop {n : ℕ} (hr : r ≠ []) (hn : 0 < n)
    (hlines : ∀ k, LineOf env s'.mode (r.drop n) k → LineOf env s.mode r k) :
    Shrinks env s r s' (r.drop n) := by
  refine .inr ⟨?_, hlines⟩
  have := List.length_pos_of_ne_nil hr
  rw [List.length_drop]
  omega

/-- A protocol error leaves all of the stream, also of a longer one. -/
theorem step_fail {e : ProtocolError} {p : Prop} (h : some (s.fail e, r) = some (s', r')) :
    Shrinks env s r s' r' ∧ (p → some (s.fail e, r ++ y) = some (s', r' ++ y)) := by
  obtain ⟨⟩ := h
  exact ⟨.inl ⟨e, rfl, rfl⟩, fun _ => rfl⟩

@[simp] theorem Session.execute_mode (s : Session W) (argv : List Bytes) :
    (s.execute env argv).mode = .start := by
  rw [Session.execute]
  split_ifs <;> rfl

theorem Session.inlineLine_step (hmode : s.mode = .start) (hr : r ≠ []) (hhead : r.head? ≠ some 42)
    (h : s.inlineLine env r = some (s', r')) :
    Shrinks env s r s' r' ∧ ((∀ k, strchr (r ++ y) 10 = some k → k ≤ protoInlineMaxSize) →
      s.inlineLine env (r ++ y) = some (s', r' ++ y)) := by
  rw [Session.inlineLine] at h ⊢
  rcases hk : strchr r 10 with _ | k
  · rw [hk] at h
    simp only at h
    split_ifs at h with hbig
    obtain ⟨⟩ := h
    refine ⟨.inl ⟨_, rfl, rfl⟩, fun hfit => ?_⟩
    rcases hk' : strchr (r ++ y) 10 with _ | k
    · have hlen : protoInlineMaxSize < (r ++ y).length := by
        rw [List.length_append]
        omega
      simp only [if_pos hlen]
    · have h1 := hfit k hk'
      have h2 := le_of_strchr_append hk hk'
      omega
  · have hlt := strchr_lt hk
    rw [hk] at h
    rw [strchr_append hk]
    have hquery : querylen (r ++ y) k = querylen r k := by
      rw [querylen, querylen, List.getElem?_append_left (by omega)]
    have hle : querylen r k ≤ r.length := (querylen_le r k).trans hlt.le
    simp only [hquery, List.take_append_of_le_length hle] at h ⊢
    rcases hargs : sdssplitargs (r.take (querylen r k)) with _ | args
    · rw [hargs] at h
      exact step_fail h
    · rw [hargs] at h
      obtain ⟨⟩ := h
      refine ⟨shrinks_drop hr (by omega) fun k' hline => ?_, fun _ => ?_⟩
      · have hstart : ∀ (p : Prop) [Decidable p] (argv : List Bytes),
            (if p then s.serveGopher env argv else s.execute env argv).mode = .start := by
          intro p _ argv
          split_ifs
          · rfl
          · exact s.execute_mode argv
        rw [hstart] at hline
        rw [hmode]
        exact .inlineNext hhead hk hargs hline
      · simp only [List.drop_append_of_le_length hlt]

theorem Session.countLine_step (hmode : s.mode = .start) (hr : r ≠ []) (hhead : r.head? = some 42)
    (h : s.countLine env r = some (s', r')) :
    Shrinks env s r s' r' ∧ ((∀ k, strchr (r ++ y) 13 = some k → k ≤ protoInlineMaxSize) →
      s.countLine env (r ++ y) = some (s', r' ++ y)) := by
  rw [Session.countLine] at h ⊢
  rcases hline : findLine r .tooBigMbulkCount with p | k
  · rw [hline] at h
    cases p with
    | ready => cases h
    | more => cases h
    | error e =>
      obtain ⟨⟩ := h
      exact ⟨.inl ⟨e, rfl, rfl⟩, fun hfit => by rw [findLine_error_append hline hfit]⟩
  · obtain ⟨hk, hlen⟩ := findLine_eq_inr hline
    rw [hline] at h
    rw [findLine_append hline]
    simp only [take_line_append hlen, List.drop_append_of_le_length hlen] at h ⊢
    rcases hll : env.string2ll ((r.drop 1).take (k - 1)) with _ | ll
    · rw [hll] at h
      exact step_fail h
    · rw [hll] at h
      simp only at h ⊢
      by_cases hmax : 1048576 < ll
      · rw [if_pos hmax] at h ⊢
        exact step_fail h
      · rw [if_neg hmax] at h ⊢
        obtain ⟨⟩ := h
        refine ⟨shrinks_drop hr (by omega) fun k' hnext => ?_, fun _ => rfl⟩
        rw [hmode]
        refine .countNext hhead hk hll (by omega) ?_
        split_ifs at hnext ⊢
        · rwa [s.execute_mode] at hnext
        · exact hnext

theorem Session.bulkLine_step {n : ℕ} (hmode : s.mode = .bulks n args) (hr : r ≠ [])
    (h : s.bulkLine env n args r = some (s', r')) :
    Shrinks env s r s' r' ∧ ((∀ k, strchr (r ++ y) 13 = some k → k ≤ protoInlineMaxSize) →
      s.bulkLine env n args (r ++ y) = some (s', r' ++ y)) := by
  rw [Session.bulkLine] at h ⊢
  rcases hline : findLine r .tooBigBulkCount with p | k
  · rw [hline] at h
    cases p with
    | ready => cases h
    | more => cases h
    | error e =>
      obtain ⟨⟩ := h
      exact ⟨.inl ⟨e, rfl, rfl⟩, fun hfit => by rw [findLine_error_append hline hfit]⟩
  · obtain ⟨hk, hlen⟩ := findLine_eq_inr hline
    rw [hline] at h
    rw [findLine_append hline]
    simp only [take_line_append hlen, List.drop_append_of_le_length hlen,
      List.head?_append_of_ne_nil r hr, headD_append_of_ne_nil hr] at h ⊢
    by_cases hd : r.head? = some 36
    · simp only [hd, ne_eq, not_true_eq_false, if_false] at h ⊢
      rcases hll : env.string2ll ((r.drop 1).take (k - 1)) with _ | ll
      · rw [hll] at h
        exact step_fail h
      · rw [hll] at h
        simp only at h ⊢
        by_cases hbad : ll < 0 ∨ env.protoMaxBulkLen < ll
        · rw [if_pos hbad] at h ⊢
          exact step_fail h
        · rw [if_neg hbad] at h ⊢
          obtain ⟨⟩ := h
          refine ⟨shrinks_drop hr (by omega) fun k' hnext => ?_, fun _ => rfl⟩
          rw [hmode]
          exact .bulkNext hk hd hll (by omega) (by omega) hnext
    · simp only [ne_eq, hd, not_false_eq_true, if_true] at h ⊢
      exact step_fail h

theorem Session.bulk_step {n len : ℕ} (hmode : s.mode = .payload n len args) (hr : r ≠ [])
    (h : s.bulk env n len args r = some (s', r')) :
    Shrinks env s r s' r' ∧ s.bulk env n len args (r ++ y) = some (s', r' ++ y) := by
  rw [Session.bulk] at h ⊢
  by_cases hlen : r.length < len + 2
  · rw [if_pos hlen] at h
    cases h
  · rw [if_neg hlen] at h
    obtain ⟨⟩ := h
    refine ⟨shrinks_drop hr (by omega) fun k' hnext => ?_, ?_⟩
    · rw [hmode]
      refine .payloadNext ?_
      split_ifs at hnext ⊢
      · rwa [s.execute_mode] at hnext
      · exact hnext
    · rw [if_neg (by rw [List.length_append]; omega), List.take_append_of_le_length (by omega),
        List.drop_append_of_le_length (by omega)]

/-- The machine only takes a step on some input, and unless it is halted. -/
theorem Session.step_ne_none (h : (s.step env r).isSome = true) :
    r ≠ [] ∧ halted env s.world s.flags = false := by
  rw [Session.step] at h
  by_cases hr : r = []
  · rw [if_pos hr] at h
    cases h
  · rw [if_neg hr] at h
    refine ⟨hr, ?_⟩
    by_contra hhalt
    rw [if_pos (by simpa using hhalt)] at h
    cases h

/-- What a step leaves, and that more input does not change it. -/
theorem Session.step_spec (y : Bytes) (h : s.step env r = some (s', r')) :
    Shrinks env s r s' r' ∧ (s.fits env (r ++ y) → s.step env (r ++ y) = some (s', r' ++ y)) := by
  obtain ⟨hr, hhalt⟩ := Session.step_ne_none (by rw [h]; rfl)
  rw [Session.step, if_neg hr, if_neg (by simp [hhalt])] at h
  rw [Session.step, if_neg (by simp [hr]), if_neg (by simp [hhalt])]
  have hhead : (r ++ y).head? = r.head? := List.head?_append_of_ne_nil r hr
  rcases hmode : s.mode with _ | ⟨n, args⟩ | ⟨n, len, args⟩
  · rw [hmode] at h
    simp only [Session.fits, hmode]
    by_cases hstar : r.head? = some 42
    · simp only [hhead, if_pos hstar] at h ⊢
      refine (Session.countLine_step hmode hr hstar h).imp_right fun happend hfit =>
        happend fun k hk => ?_
      exact hfit k (.countHere (hhead.trans hstar) hk)
    · simp only [hhead, if_neg hstar] at h ⊢
      refine (Session.inlineLine_step hmode hr hstar h).imp_right fun happend hfit =>
        happend fun k hk => ?_
      exact hfit k (.inlineHere (by rwa [hhead]) hk)
  · rw [hmode] at h
    simp only [Session.fits, hmode]
    exact (Session.bulkLine_step hmode hr h).imp_right fun happend hfit => happend fun k hk =>
      hfit k (.bulkHere hk)
  · rw [hmode] at h
    exact (Session.bulk_step hmode hr h).imp_right fun happend _ => happend

theorem Session.step_shrinks (h : s.step env r = some (s', r')) : Shrinks env s r s' r' :=
  (Session.step_spec [] h).1

/-- **The way a stream arrives does not matter** to the machine, if no line of it is
too long. -/
theorem monotone_step (env : Env W) :
    Transducer.Monotone (Session.step env) (Session.fits env) := by
  refine ⟨fun s r s' r' y hfit h => (Session.step_spec y h).2 hfit, fun s r s' r' hfit h => ?_⟩
  rcases Session.step_shrinks h with ⟨e, rfl, rfl⟩ | ⟨-, hlines⟩
  · exact hfit
  · exact fun k hk => hfit k (hlines k hk)

theorem length_le_of_steps {a b : Session W × Bytes}
    (h : Transducer.Steps (Session.step env) a b) : b.2.length ≤ a.2.length := by
  refine h.invariant (I := fun _ r => r.length ≤ a.2.length) (fun s r s' r' hr hstep => ?_) le_rfl
  rcases Session.step_shrinks hstep with ⟨e, -, rfl⟩ | ⟨hlt, -⟩
  · exact hr
  · exact hlt.le.trans hr

end Mono

/-- A line is shorter than the stream it is in. -/
theorem LineOf.lt_length {W : Type} {env : Env W} {m : Mode} {u : Bytes} (h : LineOf env m u k) :
    k < u.length := by
  have hdrop : ∀ {v : Bytes} {n j : ℕ}, j < (v.drop n).length → j < v.length := by
    intro v n j hj
    rw [List.length_drop] at hj
    omega
  induction h with
  | inlineHere _ hk => exact strchr_lt hk
  | inlineNext _ _ _ _ ih => exact hdrop ih
  | countHere _ hk => exact strchr_lt hk
  | countNext _ _ _ _ _ ih => exact hdrop ih
  | bulkHere hk => exact strchr_lt hk
  | bulkNext _ _ _ _ _ _ ih => exact hdrop ih
  | payloadNext _ ih => exact hdrop ih

end Networking
