/-
Reads by the I/O threads.

With threaded reads a readable client is marked with `CLIENT_PENDING_READ`, an I/O
thread reads and parses up to the first command, and the main thread executes that
command and goes on (`threadedRead`).  Compared with a read by the main thread the
client is marked, and its buffer is trimmed once more, before the first command.
Neither of that matters to the parser (`Client.Sim`, `ParseSim`), and a parser that
stopped for more input stops again on the same input (`inputTurn_stable`), so that
both ways leave the same client and executed the same commands
(`threadedRead_eq`), as long as no command frees its own client.
-/
import DecomposeRedis.QueryReads

namespace Networking

open Sds

variable {W : Type}

/-! ### Clients that differ in the layout of the buffer -/

/-- The client with its buffer laid out differently, and with `CLIENT_PENDING_READ` or
without. -/
def Client.relaid (c : Client) (q : Bytes) (p : ℕ) (b : Bool) : Client :=
  { c with querybuf := q, qbPos := p, flags := { c.flags with pendingRead := b } }

/-- The same bytes are to be parsed, in the same state of the parser; `b` tells whether
the second client is marked. -/
inductive Client.Sim (b : Bool) (c : Client) : Client → Prop
  | relaid {q : Bytes} {p : ℕ} :
    c.qbPos ≤ c.querybuf.length → -1 ≤ c.bulklen → p ≤ q.length → q.drop p = c.rest →
    Sim b c (c.relaid q p b)

/-- What the link to a master keeps of the stream. -/
def Client.repl (c : Client) : Bytes × ℤ × ℤ := (c.pendingQuerybuf, c.readReploff, c.reploff)

/-- What a parser does not change on its way. -/
def Client.kind (c : Client) : Flags × ReqType × Bytes × ℤ × ℤ := (c.flags, c.reqtype, c.repl)

theorem Client.kind_eq {c c₁ : Client} (h : c₁.kind = c.kind) :
    c₁.flags = c.flags ∧ c₁.reqtype = c.reqtype ∧ c₁.repl = c.repl := by
  obtain ⟨hflags, h⟩ := Prod.mk.inj h
  exact ⟨hflags, Prod.mk.inj h⟩

/-- What a parser returns for two such clients, when it consumes at least `k` bytes of
a whole request. -/
inductive ParseSim (b : Bool) (c : Client) (k : ℕ) :
    Option (Progress × Client) → Option (Progress × Client) → Prop
  | fault : ParseSim b c k none none
  | ready {c₁ c₂ : Client} :
    c₁.Sim b c₂ → c₁.kind = c.kind → c₁.rest.length + k ≤ c.rest.length →
    ParseSim b c k (some (.ready, c₁)) (some (.ready, c₂))
  | more {c₁ c₂ : Client} :
    c₁.Sim b c₂ → c₁.kind = c.kind → c₁.rest.length ≤ c.rest.length →
    ParseSim b c k (some (.more, c₁)) (some (.more, c₂))
  | error {e : ProtocolError} {c₁ c₂ : Client} :
    c₁.Sim b c₂ → c₁.flags = (setProtocolError c).flags → c₁.repl = c.repl →
    c₁.rest.length ≤ c.rest.length →
    ParseSim b c k (some (.error e, c₁)) (some (.error e, c₂))

section

variable {b : Bool} {c c' : Client}

theorem Client.Sim.pos (h : c.Sim b c') : c.qbPos ≤ c.querybuf.length := by
  cases h
  assumption

theorem Client.Sim.bulklen (h : c.Sim b c') : -1 ≤ c.bulklen := by
  cases h
  assumption

theorem Client.Sim.setProtocolError (h : c.Sim b c') :
    (setProtocolError c).Sim b (setProtocolError c') := by
  cases h with
  | relaid hpos hbulk hp hq => exact .relaid hpos hbulk hp hq

/-- Both clients consume the same `k` bytes, and then agree on the other fields. -/
theorem ParseSim.advance {c₁ : Client} {q : Bytes} {p j k : ℕ}
    (hpos : c.qbPos ≤ c.querybuf.length) (hp : p ≤ q.length) (hq : q.drop p = c.rest)
    (hk : k ≤ c.rest.length) (hj : j ≤ k) (hbuf : c₁.querybuf = c.querybuf)
    (hqb : c₁.qbPos = c.qbPos + k) (hbulk : -1 ≤ c₁.bulklen) (hkind : c₁.kind = c.kind) :
    ParseSim b c j (some (.ready, c₁)) (some (.ready, c₁.relaid q (p + k) b)) := by
  have hlen := c.length_rest
  have hlen' := congrArg List.length hq
  rw [List.length_drop] at hlen'
  have hrest : c₁.rest = c.rest.drop k := by
    rw [Client.rest, hbuf, hqb, c.rest_advance]
  refine .ready (.relaid ?_ hbulk (by omega) ?_) hkind ?_
  · rw [hbuf, hqb]
    omega
  · rw [hrest, ← List.drop_drop, hq]
  · rw [hrest, List.length_drop]
    omega

theorem Client.Sim.unparsed (h : c.Sim b c') :
    c.unparsed = some c.rest ∧ c'.unparsed = some c.rest := by
  cases h with
  | relaid hpos hbulk hp hq =>
    refine ⟨Client.unparsed_eq hpos, ?_⟩
    rw [Client.unparsed_eq (by exact hp)]
    exact congrArg some hq

theorem processInlineBuffer_sim (h : c.Sim b c') :
    ParseSim b c 1 (processInlineBuffer c) (processInlineBuffer c') := by
  obtain ⟨hrest, hrest'⟩ := h.unparsed
  rw [processInlineBuffer, processInlineBuffer, hrest, hrest', Option.map_some, Option.map_some]
  rcases hk : strchr c.rest 10 with _ | k
  · simp only
    split_ifs
    · exact .error h.setProtocolError rfl rfl le_rfl
    · exact .more h rfl le_rfl
  simp only
  rcases sdssplitargs _ with _ | args
  · exact .error h.setProtocolError rfl rfl le_rfl
  · have hlt := strchr_lt hk
    generalize hcr : (decide (k ≠ 0) && decide (c.rest[k - 1]? = some 13)) = cr
    have hle : (if cr = true then k - 1 else k) + (if cr = true then 2 else 1) ≤ c.rest.length := by
      split_ifs with hcr'
      · subst hcr'
        simp only [Bool.and_eq_true, decide_eq_true_eq] at hcr
        omega
      · omega
    cases h with
    | @relaid q p hpos hbulk hp hq =>
      refine .advance hpos hp hq hle ?_ rfl rfl hbulk rfl
      split_ifs <;> omega

/-- A search for the end of a line that failed. -/
theorem stopped_sim {k : ℕ} (h : c.Sim b c') {p : Progress} (hp : p ≠ .ready) :
    ParseSim b c k (some (c.stopped p)) (some (c'.stopped p)) := by
  cases p with
  | ready => exact absurd rfl hp
  | more => exact .more h rfl le_rfl
  | error e => exact .error h.setProtocolError rfl rfl le_rfl

theorem readMultibulkLen_sim (env : Env W) (h : c.Sim b c') :
    ParseSim b c 1 (readMultibulkLen env c) (readMultibulkLen env c') := by
  obtain ⟨hrest, hrest'⟩ := h.unparsed
  have hargv : c'.argv = c.argv := by cases h; rfl
  rw [readMultibulkLen, readMultibulkLen, hargv, hrest, hrest', Option.bind_some, Option.bind_some]
  by_cases hnil : c.argv ≠ []
  · rw [if_pos hnil, if_pos hnil]
    exact .fault
  rw [if_neg hnil, if_neg hnil]
  rcases hline : findLine c.rest .tooBigMbulkCount with p | k
  · refine stopped_sim h ?_
    rintro rfl
    exact findLine_ne_ready _ _ hline
  have hk := (findLine_eq_inr hline).2
  simp only
  by_cases hstar : c.rest.head? ≠ some 42
  · rw [if_pos hstar, if_pos hstar]
    exact .fault
  rw [if_neg hstar, if_neg hstar]
  rcases env.string2ll _ with _ | ll
  · exact stopped_sim h (by rintro ⟨⟩)
  simp only
  by_cases hmax : 1048576 < ll
  · rw [if_pos hmax, if_pos hmax]
    exact stopped_sim h (by rintro ⟨⟩)
  rw [if_neg hmax, if_neg hmax]
  cases h with
  | @relaid q p hpos hbulk hp hq =>
    by_cases hll : ll ≤ 0
    · rw [if_pos hll, if_pos hll]
      exact .advance hpos hp hq hk (by omega) rfl rfl hbulk rfl
    · rw [if_neg hll, if_neg hll]
      exact .advance hpos hp hq hk (by omega) rfl rfl hbulk rfl

theorem readBulkLen_sim (env : Env W) (h : c.Sim b c') :
    ParseSim b c 0 (readBulkLen env c) (readBulkLen env c') := by
  obtain ⟨hrest, hrest'⟩ := h.unparsed
  have hbulklen : c'.bulklen = c.bulklen := by cases h; rfl
  rw [readBulkLen, readBulkLen, hbulklen, hrest, hrest', Option.map_some, Option.map_some]
  by_cases hb : c.bulklen ≠ -1
  · rw [if_pos hb, if_pos hb]
    exact .ready h rfl le_rfl
  rw [if_neg hb, if_neg hb]
  rcases hline : findLine c.rest .tooBigBulkCount with p | k
  · refine stopped_sim h ?_
    rintro rfl
    exact findLine_ne_ready _ _ hline
  have hk := (findLine_eq_inr hline).2
  simp only
  by_cases hdollar : c.rest.head? ≠ some 36
  · rw [if_pos hdollar, if_pos hdollar]
    exact stopped_sim h (by rintro ⟨⟩)
  rw [if_neg hdollar, if_neg hdollar]
  rcases env.string2ll _ with _ | ll
  · exact stopped_sim h (by rintro ⟨⟩)
  simp only
  by_cases hrange : ll < 0 ∨ env.protoMaxBulkLen < ll
  · rw [if_pos hrange, if_pos hrange]
    exact stopped_sim h (by rintro ⟨⟩)
  rw [if_neg hrange, if_neg hrange]
  cases h with
  | @relaid q p hpos hbulk hp hq =>
    have hlen := c.length_rest
    have hlen' := congrArg List.length hq
    rw [List.length_drop] at hlen'
    -- The same number of bytes is left, so that both buffers are cut or none is.
    have hleft : q.length - (p + (k + 2)) = c.querybuf.length - (c.qbPos + (k + 2)) := by omega
    simp only [Client.relaid, hleft]
    by_cases hcut : (protoMbulkBigArg : ℤ) ≤ ll ∧
        ((c.querybuf.length - (c.qbPos + (k + 2)) : ℕ) : ℤ) ≤ ll + 2
    · have hdrop : q.drop (p + (k + 2)) = c.rest.drop (k + 2) := by rw [← List.drop_drop, hq]
      rw [if_pos hcut, if_pos hcut, sdsrange_neg_one q (by omega),
        sdsrange_neg_one c.querybuf (by omega), c.rest_advance, hdrop]
      refine .ready (.relaid (Nat.zero_le _) ?_ (Nat.zero_le _) rfl) rfl ?_
      · show -1 ≤ ll
        omega
      · show (c.rest.drop (k + 2)).length + 0 ≤ c.rest.length
        rw [List.length_drop]
        omega
    · rw [if_neg hcut, if_neg hcut]
      refine .advance hpos hp hq hk (Nat.zero_le _) rfl rfl ?_ rfl
      show -1 ≤ ll
      omega

/-- How a parser ends, with what is known of the client when there is something to go on with. -/
inductive Ends (Q : Client → Prop) (c : Client) : Progress × Client → Prop
  | ready {c₁ : Client} : Q c₁ → Ends Q c (.ready, c₁)
  | more : Ends Q c (.more, c)
  | error (e : ProtocolError) (c₁ : Client) : Ends Q c (.error e, c₁)

variable {env : Env W} {Q : Client → Prop} {c₁ : Client} {x : Progress × Client}

theorem Ends.stopped {p : Progress} (hp : p ≠ .ready) : Ends Q c (c.stopped p) := by
  cases p with
  | ready => exact absurd rfl hp
  | more => exact .more
  | error e => exact .error e _

theorem Ends.readyAt (h : Ends Q c (.ready, c₁)) : Q c₁ := by
  cases h
  assumption

theorem Ends.moreAt (h : Ends Q c (.more, c₁)) : c₁ = c := by
  cases h
  rfl

theorem readMultibulkLen_ends (h : readMultibulkLen env c = some x) :
    Ends (fun c₁ => c₁.flags = c.flags) c x := by
  rw [readMultibulkLen] at h
  split at h
  · cases h
  obtain ⟨rest, -, h⟩ := Option.bind_eq_some_iff.mp h
  rcases hline : findLine rest .tooBigMbulkCount with p | k
  · rw [hline] at h
    obtain rfl := Option.some.inj h
    exact .stopped fun hp => findLine_ne_ready _ _ (hp ▸ hline)
  rw [hline] at h
  simp only at h
  split at h
  · cases h
  split at h
  · exact Option.some.inj h ▸ .error _ _
  split at h
  · exact Option.some.inj h ▸ .error _ _
  split at h <;> exact Option.some.inj h ▸ .ready rfl

theorem readBulkLen_ends (h : readBulkLen env c = some x) :
    Ends (fun c₁ => c₁.bulklen ≠ -1 ∧ c₁.multibulklen = c.multibulklen ∧
      c₁.flags = c.flags) c x := by
  rw [readBulkLen] at h
  by_cases hb : c.bulklen ≠ -1
  · rw [if_pos hb] at h
    exact Option.some.inj h ▸ .ready ⟨hb, rfl, rfl⟩
  rw [if_neg hb] at h
  obtain ⟨rest, -, rfl⟩ := Option.map_eq_some_iff.mp h
  rcases hline : findLine rest .tooBigBulkCount with p | k
  · exact .stopped fun hp => findLine_ne_ready _ _ (hp ▸ hline)
  simp only
  split
  · exact .error _ _
  split
  · exact .error _ _
  split
  · exact .error _ _
  rename_i ll _ hrange
  refine .ready ⟨?_, ?_⟩
  · rintro (hll : ll = -1)
    exact hrange (.inl (by omega))
  · simp only
    split <;> exact ⟨rfl, rfl⟩

theorem readBulk_ends (h : readBulk c = some x) :
    Ends (fun c₁ => c₁.multibulklen = c.multibulklen - 1 ∧ c₁.flags = c.flags) c x := by
  obtain ⟨rest, -, h⟩ := Option.bind_eq_some_iff.mp h
  split_ifs at h
  · exact Option.some.inj h ▸ .more
  · exact Option.some.inj h ▸ .ready ⟨rfl, rfl⟩
  · exact Option.some.inj h ▸ .ready ⟨rfl, rfl⟩

theorem processInlineBuffer_ends (h : processInlineBuffer c = some x) :
    Ends (fun c₁ => c₁.flags = c.flags) c x := by
  obtain ⟨rest, -, rfl⟩ := Option.map_eq_some_iff.mp h
  split
  · split
    · exact .error _ _
    · exact .more
  · simp only
    split
    · exact .error _ _
    · exact .ready rfl

/-- A large argument that is alone in the buffer is taken with the buffer, and
otherwise it is copied out of it; the argument is the same. -/
theorem readBulk_sim (h : c.Sim b c') (hb : c.bulklen ≠ -1) :
    ParseSim b c 1 (readBulk c) (readBulk c') := by
  obtain ⟨hrest, hrest'⟩ := h.unparsed
  cases h with
  | @relaid q p hpos hbulk hp hq =>
    obtain ⟨len, hlen⟩ : ∃ len : ℕ, c.bulklen = len := Int.eq_ofNat_of_zero_le (by omega)
    by_cases hmore : (c.rest.length : ℤ) < c.bulklen + 2
    · rw [readBulk, readBulk, hrest, hrest', Option.bind_some, Option.bind_some, if_pos hmore,
        if_pos (by exact hmore)]
      exact .more (.relaid hpos hbulk hp hq) rfl le_rfl
    by_cases hslots : c.argvLen ≤ c.argv.length
    · have hnone : ∀ d : Client, d.unparsed = some c.rest → d.bulklen = c.bulklen →
          d.argvLen ≤ d.argv.length → readBulk d = none := by
        intro d hd hdb hds
        rw [readBulk, hd, Option.bind_some, hdb, if_neg hmore, if_pos hds]
      rw [hnone c hrest rfl hslots, hnone _ hrest' rfl hslots]
      exact .fault
    have hlong : len + 2 ≤ c.rest.length := by omega
    obtain ⟨buf, pos, hread, hle, hdrop⟩ := readBulk_eq hpos hlen hlong (by omega)
    have hq' : (c.relaid q p b).rest = c.rest := hq
    obtain ⟨buf', pos', hread', hle', hdrop'⟩ := readBulk_eq (c := c.relaid q p b) hp hlen
      (by rw [hq']; exact hlong) (show c.argv.length < c.argvLen by omega)
    rw [hread, hread', hq']
    rw [hq'] at hdrop'
    refine .ready (.relaid hle (by exact le_rfl) hle' (hdrop'.trans hdrop.symm)) rfl ?_
    show (buf.drop pos).length + 1 ≤ c.rest.length
    rw [hdrop, List.length_drop]
    omega

/-- A parser that goes on with what another one left. -/
theorem ParseSim.after {c₁ : Client} {i j k : ℕ} {x y : Option (Progress × Client)}
    (h : ParseSim b c₁ i x y) (hkind : c₁.kind = c.kind)
    (hlen : c₁.rest.length + j ≤ c.rest.length) (hk : k ≤ i + j) : ParseSim b c k x y := by
  cases h with
  | fault => exact .fault
  | ready hsim hf hl => exact .ready hsim (hf.trans hkind) (by omega)
  | more hsim hf hl => exact .more hsim (hf.trans hkind) (by omega)
  | error hsim hf hr hl =>
    refine .error hsim (hf.trans ?_) (hr.trans (Client.kind_eq hkind).2.2) (by omega)
    rw [setProtocolError, setProtocolError, (Client.kind_eq hkind).1]

theorem bulkLoop_sim (env : Env W) {n k : ℕ} (hk : k ≤ n) (hk1 : k ≤ 1) (h : c.Sim b c') :
    ParseSim b c k (bulkLoop env n c) (bulkLoop env n c') := by
  induction n generalizing c c' k with
  | zero => exact .ready h rfl (by omega)
  | succ n ih =>
    rw [bulkLoop, bulkLoop]
    have hlen := readBulkLen_sim env h
    generalize hx : readBulkLen env c = x at hlen ⊢
    generalize readBulkLen env c' = y at hlen ⊢
    cases hlen with
    | fault => exact .fault
    | more hsim hf hl => exact .more hsim hf hl
    | error hsim hf hr hl => exact .error hsim hf hr hl
    | @ready c₁ c₂ hsim hf hle =>
      have hb := (readBulkLen_ends hx).readyAt.1
      have hbulk := readBulk_sim hsim hb
      simp only [Option.bind_some]
      generalize readBulk c₁ = u at hbulk ⊢
      generalize readBulk c₂ = v at hbulk ⊢
      cases hbulk with
      | fault => exact .fault
      | more hsim₁ hf₁ hl₁ => exact .more hsim₁ (hf₁.trans hf) (hl₁.trans hle)
      | error hsim₁ hf₁ hr₁ hl₁ =>
        refine .error hsim₁ (hf₁.trans ?_) (hr₁.trans (Client.kind_eq hf).2.2) (hl₁.trans hle)
        rw [setProtocolError, setProtocolError, (Client.kind_eq hf).1]
      | ready hsim₁ hf₁ hle₁ =>
        exact (ih (Nat.zero_le n) (Nat.zero_le 1) hsim₁).after (hf₁.trans hf)
          (show _ + 1 ≤ c.rest.length by omega) (by omega)

theorem Client.Sim.multibulklen (h : c.Sim b c') : c'.multibulklen = c.multibulklen := by
  cases h
  rfl

theorem readBulks_sim (env : Env W) (h : c.Sim b c') :
    ParseSim b c 1 (readBulks env c) (readBulks env c') := by
  rw [readBulks, readBulks, h.multibulklen]
  by_cases hn : c.multibulklen = 0
  · rw [if_pos hn, if_pos hn]
    exact .fault
  · rw [if_neg hn, if_neg hn]
    exact bulkLoop_sim env (by omega) le_rfl h

theorem processMultibulkBuffer_sim (env : Env W) (h : c.Sim b c') :
    ParseSim b c 1 (processMultibulkBuffer env c) (processMultibulkBuffer env c') := by
  rw [processMultibulkBuffer, processMultibulkBuffer, h.multibulklen]
  by_cases hn : c.multibulklen = 0
  case neg =>
    rw [if_neg hn, if_neg hn]
    exact readBulks_sim env h
  rw [if_pos hn, if_pos hn]
  have hlen := readMultibulkLen_sim env h
  generalize readMultibulkLen env c = x at hlen ⊢
  generalize readMultibulkLen env c' = y at hlen ⊢
  cases hlen with
  | fault => exact .fault
  | more hsim hf hl => exact .more hsim hf hl
  | error hsim hf hr hl => exact .error hsim hf hr hl
  | @ready c₁ c₂ hsim hf hle =>
    simp only [Option.bind_some, hsim.multibulklen]
    by_cases hn₁ : c₁.multibulklen = 0
    · rw [if_pos hn₁, if_pos hn₁]
      exact .ready hsim hf hle
    · rw [if_neg hn₁, if_neg hn₁]
      exact (readBulks_sim env hsim).after hf hle (by omega)

end

/-! ### Turns of the loop -/

section Turns

variable {env : Env W} {b : Bool} {st st' : State W} {c c₁ : Client}

/-- Two states that differ in the same way. -/
structure State.Sim (b : Bool) (st st' : State W) : Prop where
  world : st'.world = st.world
  log : st'.log = st.log
  client : st.client.Sim b st'.client

/-- The parts of the stream of a master that were passed on. -/
def forwarded (log : List Event) : Bytes :=
  log.flatMap fun
    | .feedSlaves stream => stream
    | _ => []

/-- What is known of the state in which a turn leaves the loop. -/
structure State.Leaves (st st₁ : State W) : Prop where
  link : st.client.flags.SameLink st₁.client.flags
  pending : st₁.client.flags.pendingCommand = st.client.flags.pendingCommand
  rest : st₁.client.rest.length ≤ st.client.rest.length
  repl : st₁.client.repl = st.client.repl
  log : forwarded st₁.log = forwarded st.log

/-- What is known of the state in which a turn has a request to execute. -/
structure State.Requests (st st₁ : State W) : Prop where
  flags : st₁.client.flags = st.client.flags
  rest : st₁.client.rest.length < st.client.rest.length
  repl : st₁.client.repl = st.client.repl
  log : st₁.log = st.log

/-- What a turn of the loop does for two such states. -/
inductive TurnSim (env : Env W) (b : Bool) (st : State W) : Option (Turn W) → Option (Turn W) → Prop
  | fault : TurnSim env b st none none
  | stop {st₁ st₂ : State W} :
    st₁.Sim b st₂ → st.Leaves st₁ → TurnSim env b st (some (.stop st₁)) (some (.stop st₂))
  | request {st₁ st₂ : State W} :
    st₁.Sim b st₂ → st.Requests st₁ →
    TurnSim env b st (some (runRequest env st₁)) (some (runRequest env st₂))

theorem Client.Sim.halted {c' : Client} (h : c.Sim b c') (w : W) :
    halted env w c'.flags = halted env w c.flags := by
  cases h
  rfl

theorem Client.Sim.setReqtype {c' : Client} (h : c.Sim b c') :
    (c.setReqtype c.rest).Sim b (c'.setReqtype c.rest) := by
  cases h with
  | @relaid q p hpos hbulk hp hq =>
    by_cases htype : c.reqtype = .unknown
    · have heq : ∀ d : Client, d.reqtype = .unknown → d.setReqtype c.rest
          = { d with reqtype := if c.rest.head? = some 42 then .multibulk else .inline } :=
        fun d hd => if_pos hd
      rw [heq c htype, heq (c.relaid q p b) htype]
      exact .relaid hpos hbulk hp hq
    · have heq : ∀ d : Client, d.reqtype ≠ .unknown → d.setReqtype c.rest = d :=
        fun d hd => if_neg hd
      rw [heq c htype, heq (c.relaid q p b) htype]
      exact .relaid hpos hbulk hp hq

theorem Client.setReqtype_flags (c : Client) (rest : Bytes) :
    (c.setReqtype rest).flags = c.flags ∧ (c.setReqtype rest).rest = c.rest
      ∧ (c.setReqtype rest).repl = c.repl := by
  rw [Client.setReqtype]
  split <;> exact ⟨rfl, rfl, rfl⟩

theorem forwarded_append (log log' : List Event) :
    forwarded (log ++ log') = forwarded log ++ forwarded log' :=
  List.flatMap_append

/-- The end of a turn that the parser stopped. -/
theorem stopTurn_sim {c₂ : Client} {p : Progress} (hworld : st'.world = st.world)
    (hlog : st'.log = st.log) (hflags : c.flags = st.client.flags) (hrest : c.rest = st.client.rest)
    (hrepl : c.repl = st.client.repl) (h : ParseSim b c 1 (some (p, c₁)) (some (p, c₂)))
    (hp : p ≠ .ready) :
    TurnSim env b st (some (stopTurn { st with client := c₁ } p))
      (some (stopTurn { st' with client := c₂ } p)) := by
  cases h with
  | ready => exact absurd rfl hp
  | more hsim hkind hl =>
    obtain ⟨hf, -, hr⟩ := Client.kind_eq hkind
    have hf := hf.trans hflags
    rw [hrest] at hl
    exact .stop ⟨hworld, hlog, hsim⟩ ⟨⟨congrArg Flags.pendingRead hf, congrArg Flags.master hf⟩,
      congrArg Flags.pendingCommand hf, hl, hr.trans hrepl, rfl⟩
  | @error e _ _ hsim hf hr hl =>
    rw [setProtocolError, hflags] at hf
    rw [hrest] at hl
    refine .stop ⟨hworld, ?_, hsim⟩ ⟨⟨(congrArg Flags.pendingRead hf :),
      (congrArg Flags.master hf :)⟩, (congrArg Flags.pendingCommand hf :), hl, hr.trans hrepl, ?_⟩
    · show st'.log ++ _ = st.log ++ _
      rw [hlog]
    · show forwarded (st.log ++ _) = _
      rw [forwarded_append]
      exact List.append_nil _

theorem serveGopher_sim {st₁ st₂ : State W} (h : st₁.Sim b st₂) (hreq : st.Requests st₁) :
    TurnSim env b st (some (.stop (serveGopher env st₁))) (some (.stop (serveGopher env st₂))) := by
  obtain ⟨hworld, hlog, hclient⟩ := h
  obtain ⟨w₂, c₂, log₂⟩ := st₂
  subst hworld hlog
  cases hclient with
  | relaid hpos hbulk hp hq =>
    refine .stop ⟨rfl, rfl, .relaid hpos le_rfl hp hq⟩ ⟨?_, ?_, hreq.rest.le, hreq.repl, ?_⟩
    · rw [← hreq.flags]
      exact ⟨rfl, rfl⟩
    · rw [← hreq.flags]
      rfl
    · show forwarded (st₁.log ++ _) = _
      rw [forwarded_append, hreq.log]
      exact List.append_nil _

/-- **A turn** does not depend on the layout of the buffer and on the mark, up to the
execution of the request. -/
theorem inputTurn_sim (env : Env W) (h : st.Sim b st') :
    TurnSim env b st (inputTurn env st) (inputTurn env st') := by
  obtain ⟨hworld, hlog, hclient⟩ := h
  obtain ⟨hrest, hrest'⟩ := hclient.unparsed
  have hhalted : halted env st'.world st'.client.flags = halted env st.world st.client.flags := by
    rw [hworld]
    exact hclient.halted _
  rw [inputTurn, inputTurn, hhalted]
  by_cases hhalt : halted env st.world st.client.flags
  · rw [if_pos hhalt, if_pos hhalt]
    exact .stop ⟨hworld, hlog, hclient⟩ ⟨⟨rfl, rfl⟩, rfl, le_rfl, rfl, rfl⟩
  rw [if_neg hhalt, if_neg hhalt, hrest, hrest', Option.bind_some, Option.bind_some]
  have hsim := hclient.setReqtype
  obtain ⟨hflags, hlen, hrepl⟩ := st.client.setReqtype_flags st.client.rest
  generalize st.client.setReqtype st.client.rest = c at hsim hflags hlen hrepl ⊢
  generalize st'.client.setReqtype st.client.rest = c' at hsim ⊢
  have htype : c'.reqtype = c.reqtype := by
    cases hsim
    rfl
  simp only [htype]
  rcases c.reqtype with _ | _ | _
  · exact .fault
  · have hparse := processInlineBuffer_sim hsim
    generalize processInlineBuffer c = x at hparse ⊢
    generalize processInlineBuffer c' = y at hparse ⊢
    cases hparse with
    | fault => exact .fault
    | more hs hf hl =>
      exact stopTurn_sim hworld hlog hflags hlen hrepl (.more hs hf hl) (by rintro ⟨⟩)
    | error hs hf hr hl =>
      exact stopTurn_sim hworld hlog hflags hlen hrepl (.error hs hf hr hl) (by rintro ⟨⟩)
    | @ready c₁ c₂ hs hf hl =>
      have hargv : c₂.argv = c₁.argv := by
        cases hs
        rfl
      simp only [Option.map_some, hargv]
      obtain ⟨hf, -, hr⟩ := Client.kind_eq hf
      rw [hlen] at hl
      have hreq : st.Requests { st with client := c₁ } := ⟨hf.trans hflags, hl, hr.trans hrepl, rfl⟩
      split
      · exact serveGopher_sim ⟨hworld, hlog, hs⟩ hreq
      · exact .request ⟨hworld, hlog, hs⟩ hreq
  · have hparse := processMultibulkBuffer_sim env hsim
    generalize processMultibulkBuffer env c = x at hparse ⊢
    generalize processMultibulkBuffer env c' = y at hparse ⊢
    cases hparse with
    | fault => exact .fault
    | more hs hf hl =>
      exact stopTurn_sim hworld hlog hflags hlen hrepl (.more hs hf hl) (by rintro ⟨⟩)
    | error hs hf hr hl =>
      exact stopTurn_sim hworld hlog hflags hlen hrepl (.error hs hf hr hl) (by rintro ⟨⟩)
    | @ready c₁ c₂ hs hf hl =>
      obtain ⟨hf, -, hr⟩ := Client.kind_eq hf
      rw [hlen] at hl
      exact .request ⟨hworld, hlog, hs⟩ ⟨hf.trans hflags, hl, hr.trans hrepl, rfl⟩

/-- How a turn ends. -/
theorem TurnSim.cases_left {x y : Option (Turn W)} (h : TurnSim env b st x y) :
    x = none ∨ (∃ s s' : State W, x = some (.stop s) ∧ s.Sim b s' ∧ st.Leaves s)
      ∨ ∃ s s' : State W, x = some (runRequest env s) ∧ s.Sim b s' ∧ st.Requests s := by
  cases h with
  | fault => exact .inl rfl
  | stop hsim hleaves => exact .inr (.inl ⟨_, _, rfl, hsim, hleaves⟩)
  | request hsim hreq => exact .inr (.inr ⟨_, _, rfl, hsim, hreq⟩)

/-- The state at the end of a turn. -/
def Turn.state : Turn W → State W
  | .again st => st
  | .stop st => st
  | .gone st => st

/-! ### A turn that stopped -/

/-- A loop that needs more input finds itself where it was. -/
theorem bulkLoop_more {n : ℕ} (hn : n = c.multibulklen) (h : bulkLoop env n c = some (.more, c₁)) :
    c₁.multibulklen ≠ 0 ∧ bulkLoop env c₁.multibulklen c₁ = some (.more, c₁) := by
  induction n generalizing c with
  | zero => cases h
  | succ n ih =>
    have hfull := h
    obtain ⟨⟨p, x⟩, hx, h⟩ := Option.bind_eq_some_iff.mp h
    cases p with
    | error e => cases h
    | more =>
      -- the length of the argument is not there yet
      obtain rfl : x = c₁ := (Prod.mk.inj (Option.some.inj h)).2
      obtain rfl := (readBulkLen_ends hx).moreAt
      rw [← hn]
      exact ⟨n.succ_ne_zero, hfull⟩
    | ready =>
      obtain ⟨⟨p, y⟩, hy, h⟩ := Option.bind_eq_some_iff.mp h
      obtain ⟨hb, hlen, -⟩ := (readBulkLen_ends hx).readyAt
      cases p with
      | error e => cases h
      | more =>
        -- the argument is not there yet, and its length is known now
        obtain rfl : y = c₁ := (Prod.mk.inj (Option.some.inj h)).2
        obtain rfl := (readBulk_ends hy).moreAt
        rw [hlen, ← hn]
        refine ⟨n.succ_ne_zero, ?_⟩
        rw [bulkLoop, readBulkLen, if_pos hb, Option.bind_some]
        simp only [hy, Option.bind_some]
      | ready =>
        refine ih ?_ h
        rw [(readBulk_ends hy).readyAt.1, hlen, ← hn]
        rfl

theorem processMultibulkBuffer_more (h : processMultibulkBuffer env c = some (.more, c₁)) :
    processMultibulkBuffer env c₁ = some (.more, c₁) := by
  have hbulks : ∀ {d : Client}, readBulks env d = some (.more, c₁) →
      processMultibulkBuffer env c₁ = some (.more, c₁) := by
    intro d hd
    rw [readBulks] at hd
    split at hd
    · cases hd
    · obtain ⟨hne, hloop⟩ := bulkLoop_more rfl hd
      rw [processMultibulkBuffer, if_neg hne, readBulks, if_neg hne, hloop]
  have hfull := h
  rw [processMultibulkBuffer] at h
  by_cases hn : c.multibulklen = 0
  case neg =>
    rw [if_neg hn] at h
    exact hbulks h
  rw [if_pos hn] at h
  obtain ⟨⟨p, x⟩, hx, h⟩ := Option.bind_eq_some_iff.mp h
  cases p with
  | error e => cases h
  | more =>
    obtain rfl : x = c₁ := (Prod.mk.inj (Option.some.inj h)).2
    obtain rfl := (readMultibulkLen_ends hx).moreAt
    exact hfull
  | ready =>
    simp only at h
    split at h
    · cases h
    · exact hbulks h

theorem inputTurn_of_held (h : st.client.flags.held = true) :
    inputTurn env st = some (.stop st) := by
  rw [inputTurn, if_pos (halted_of_held h _)]

theorem Client.Sim.refl (hpos : c.qbPos ≤ c.querybuf.length) (hbulk : -1 ≤ c.bulklen) :
    c.Sim c.flags.pendingRead c :=
  .relaid (q := c.querybuf) (p := c.qbPos) hpos hbulk hpos rfl

/-- A parser stopped for more input. -/
theorem inputTurn_of_more {w : W} {log : List Event} (hpos : c.qbPos ≤ c.querybuf.length)
    (hhalt : ¬halted env w c.flags)
    (hmore : c.reqtype = .inline ∧ processInlineBuffer c = some (.more, c)
      ∨ c.reqtype = .multibulk ∧ processMultibulkBuffer env c = some (.more, c)) :
    inputTurn env ⟨w, c, log⟩ = some (.stop ⟨w, c, log⟩) := by
  rw [inputTurn, if_neg hhalt, Client.unparsed_eq hpos, Option.bind_some]
  have hset : c.reqtype ≠ .unknown → c.setReqtype c.rest = c := fun hne => if_neg hne
  rcases hmore with ⟨htype, hparse⟩ | ⟨htype, hparse⟩
  · rw [hset (by rw [htype]; rintro ⟨⟩)]
    simp only [htype, hparse]
    rfl
  · rw [hset (by rw [htype]; rintro ⟨⟩)]
    simp only [htype, hparse]
    rfl

/-- **A turn that left the loop** leaves it again on the same input. -/
theorem inputTurn_stable {s : State W} (hpos : st.client.qbPos ≤ st.client.querybuf.length)
    (hbulk : -1 ≤ st.client.bulklen) (h : inputTurn env st = some (.stop s)) :
    inputTurn env s = some (.stop s) := by
  have hrequest : ∀ {st₁ : State W}, runRequest env st₁ = .stop s →
      inputTurn env s = some (.stop s) := by
    -- the request is left to the main thread
    intro st₁ hrun
    rw [runRequest] at hrun
    split_ifs at hrun
    · cases hrun
      exact inputTurn_of_held (by simp [Flags.held])
    · simp only at hrun
      split at hrun <;> cases hrun
  rw [inputTurn] at h
  by_cases hhalt : halted env st.world st.client.flags
  · rw [if_pos hhalt] at h
    obtain rfl : st = s := Turn.stop.inj (Option.some.inj h)
    rw [inputTurn, if_pos hhalt]
  rw [if_neg hhalt, Client.unparsed_eq hpos, Option.bind_some] at h
  have hsim := (Client.Sim.refl hpos hbulk).setReqtype
  obtain ⟨hflags, -⟩ := st.client.setReqtype_flags st.client.rest
  generalize st.client.setReqtype st.client.rest = c at h hsim hflags
  rw [← hflags] at hhalt
  rcases htype : c.reqtype with _ | _ | _
  · simp only [htype] at h
    cases h
  · simp only [htype] at h
    obtain ⟨⟨p, c₁⟩, hx, h⟩ := Option.map_eq_some_iff.mp h
    cases p with
    | ready =>
      simp only at h
      split at h
      · cases h
        exact inputTurn_of_held (by simp [Flags.held, serveGopher])
      · exact hrequest h
    | more =>
      obtain rfl := Turn.stop.inj h
      obtain rfl := (processInlineBuffer_ends hx).moreAt
      exact inputTurn_of_more hsim.pos hhalt (.inl ⟨htype, hx⟩)
    | error e =>
      have hparse := processInlineBuffer_sim hsim
      rw [hx] at hparse
      cases h
      cases hparse with
      | error _ hf => exact inputTurn_of_held (by simp [Flags.held, hf, setProtocolError])
  · simp only [htype] at h
    obtain ⟨⟨p, c₁⟩, hx, h⟩ := Option.map_eq_some_iff.mp h
    have hparse := processMultibulkBuffer_sim env hsim
    rw [hx] at hparse
    cases p with
    | ready => exact hrequest h
    | more =>
      cases h
      cases hparse with
      | more hs hf =>
        obtain ⟨hf, ht, -⟩ := Client.kind_eq hf
        exact inputTurn_of_more hs.pos (by rw [hf]; exact hhalt)
          (.inr ⟨ht.trans htype, processMultibulkBuffer_more hx⟩)
    | error e =>
      cases h
      cases hparse with
      | error _ hf => exact inputTurn_of_held (by simp [Flags.held, hf, setProtocolError])

end Turns

/-! ### The loops -/

/-- No command frees its own client, and none sets `CLIENT_PENDING_COMMAND`, which
only the I/O threads do. -/
structure Env.Spares (env : Env W) : Prop where
  alive : ∀ w f argv, (env.processCommand w f argv).2.freed = false
  pending : ∀ w f argv, f.pendingCommand = false →
    (env.processCommand w f argv).2.flags.pendingCommand = false

section Loops

variable {env : Env W} {b : Bool} {st st' : State W}

theorem Client.Sim.rest_eq {c c' : Client} (h : c.Sim b c') : c'.rest = c.rest := by
  cases h
  assumption

theorem Client.Sim.argv {c c' : Client} (h : c.Sim b c') : c'.argv = c.argv := by
  cases h
  rfl

theorem Client.Sim.pendingRead {c c' : Client} (h : c.Sim b c') : c'.flags.pendingRead = b := by
  cases h
  rfl

theorem Client.Sim.master {c c' : Client} (h : c.Sim b c') : c'.flags.master = c.flags.master := by
  cases h
  rfl

theorem Client.Sim.pendingCommand {c c' : Client} (h : c.Sim b c') :
    c'.flags.pendingCommand = c.flags.pendingCommand := by
  cases h
  rfl

theorem Client.Sim.flags_eq {c c' : Client} (h : c.Sim b c') (hb : c.flags.pendingRead = b) :
    c'.flags = c.flags := by
  cases h
  subst hb
  rfl

theorem Client.Sim.resetClient {c c' : Client} (h : c.Sim b c') (asking : Bool) :
    (resetClient asking c).Sim b (resetClient asking c') := by
  cases h with
  | relaid hpos hbulk hp hq => exact .relaid hpos le_rfl hp hq

/-- The client after a command, before it is reset. -/
def Client.executed (c : Client) (o : Outcome) : Client :=
  { c with
    flags := o.flags.keeping c.flags
    reploff :=
      if o.ok && (c.flags.master && !o.flags.multi) then c.readReploff - c.querybuf.length + c.qbPos
      else c.reploff }

theorem Client.afterCommand_eq (c : Client) (o : Outcome) :
    c.afterCommand o = if o.ok && !(o.flags.blocked && o.btypeModule)
      then Networking.resetClient o.asking (c.executed o) else c.executed o := by
  obtain ⟨ok, f, btypeModule, asking, freed⟩ := o
  cases ok <;> rfl

theorem Client.Sim.afterCommand {c c' : Client} (h : c.Sim b c') (o : Outcome) :
    (c.afterCommand o).Sim b (c'.afterCommand o) := by
  cases h with
  | @relaid q p hpos hbulk hp hq =>
    have hlen := c.length_rest
    have hlen' := congrArg List.length hq
    rw [List.length_drop] at hlen'
    -- the replication offset counts what is not parsed
    have hoff : c.readReploff - q.length + p = c.readReploff - c.querybuf.length + c.qbPos := by
      omega
    have hexec : (c.executed o).Sim b ((c.relaid q p b).executed o) := by
      have heq : (c.relaid q p b).executed o = (c.executed o).relaid q p b := by
        simp only [Client.executed, Client.relaid, Flags.keeping, hoff]
      rw [heq]
      exact .relaid hpos hbulk hp hq
    rw [Client.afterCommand_eq, Client.afterCommand_eq]
    split
    · exact hexec.resetClient _
    · exact hexec

theorem Client.afterCommand_rest (c : Client) (o : Outcome) :
    (c.afterCommand o).rest = c.rest ∧ c.flags.SameLink (c.afterCommand o).flags
      ∧ (o.flags.pendingCommand = false → (c.afterCommand o).flags.pendingCommand = false) := by
  rw [Client.afterCommand_eq]
  split <;> exact ⟨rfl, ⟨rfl, rfl⟩, id⟩

theorem processCommandAndResetClient_sim (env : Env W) (h : st.Sim b st')
    (hread : st.client.flags.pendingRead = b) :
    (processCommandAndResetClient env st).1.Sim b (processCommandAndResetClient env st').1
      ∧ (processCommandAndResetClient env st').2 = (processCommandAndResetClient env st).2 := by
  obtain ⟨hworld, hlog, hclient⟩ := h
  rw [processCommandAndResetClient, processCommandAndResetClient, hworld, hlog, hclient.argv,
    hclient.flags_eq hread]
  exact ⟨⟨rfl, rfl, hclient.afterCommand _⟩, rfl⟩

/-- How the loop ends. -/
structure LoopEnd (env : Env W) (b : Bool) (st s s' : State W) : Prop where
  sim : s.Sim b s'
  link : st.client.flags.SameLink s.client.flags
  pending : s.client.flags.pendingCommand = false
  stalled : s.client.rest = [] ∨ inputTurn env s = some (.stop s)

theorem LoopEnd.head {st₁ s s' : State W} (h : LoopEnd env b st₁ s s')
    (hlink : st.client.flags.SameLink st₁.client.flags) : LoopEnd env b st s s' :=
  ⟨h.sim, ⟨h.link.1.trans hlink.1, h.link.2.trans hlink.2⟩, h.pending, h.stalled⟩

/-- A request that is executed at once. -/
theorem runRequest_sim (henv : env.Spares) (h : st.Sim false st')
    (hread : st.client.flags.pendingRead = false) (hpc : st.client.flags.pendingCommand = false) :
    ∃ s s', runRequest env st = .again s ∧ runRequest env st' = .again s' ∧ s.Sim false s'
      ∧ s.client.rest = st.client.rest ∧ st.client.flags.SameLink s.client.flags
      ∧ s.client.flags.pendingCommand = false := by
  have hargv := h.client.argv
  have hflags := h.client.flags_eq hread
  rw [runRequest, runRequest, hargv, hflags, hread]
  by_cases hnil : st.client.argv = []
  · rw [if_pos hnil, if_pos hnil]
    exact ⟨_, _, rfl, rfl, ⟨h.world, h.log, h.client.resetClient false⟩, rfl, ⟨rfl, rfl⟩, hpc⟩
  · rw [if_neg hnil, if_neg hnil]
    obtain ⟨hsim, hfreed⟩ := processCommandAndResetClient_sim env h hread
    have halive : (processCommandAndResetClient env st).2 = false := henv.alive _ _ _
    obtain ⟨hrest, hlink, hpending⟩ := st.client.afterCommand_rest
      (env.processCommand st.world st.client.flags st.client.argv).2
    refine ⟨_, _, ?_, ?_, hsim, hrest, hlink, hpending (henv.pending _ _ _ hpc)⟩
    · simp [halive]
    · simp [hfreed, halive]

theorem Client.Sim.length_le_iff {c c' : Client} (h : c.Sim b c') :
    c'.querybuf.length ≤ c'.qbPos ↔ c.querybuf.length ≤ c.qbPos := by
  have hlen := congrArg List.length h.rest_eq
  rw [c.length_rest, c'.length_rest] at hlen
  omega

theorem inputLoop_stop {s : State W} {fuel : ℕ} (hfuel : st.client.rest.length ≤ fuel)
    (hne : ¬st.client.querybuf.length ≤ st.client.qbPos)
    (hturn : inputTurn env st = some (.stop s)) :
    inputLoop env fuel st = some (s, true) := by
  have hlen := st.client.length_rest
  obtain ⟨fuel, rfl⟩ : ∃ n, fuel = n + 1 := ⟨fuel - 1, by omega⟩
  rw [inputLoop, if_neg hne]
  simp only [hturn]
  rfl

/-- The rest of the loop after a turn. -/
def Turn.loop (env : Env W) (fuel : ℕ) : Turn W → Option (State W × Bool)
  | .again st => inputLoop env fuel st
  | .stop st => some (st, true)
  | .gone st => some (st, false)

/-- The loops on both sides end, or come to the same request. -/
theorem inputLoop_step {n m : ℕ} (h : st.Sim false st')
    (hpc : st.client.flags.pendingCommand = false) (hn : st.client.rest.length ≤ n)
    (hm : st.client.rest.length ≤ m) :
    inputLoop env n st = none ∧ inputLoop env m st' = none
      ∨ (∃ s s', inputLoop env n st = some (s, true) ∧ inputLoop env m st' = some (s', true)
        ∧ LoopEnd env false st s s')
      ∨ ∃ n' < n, ∃ m' st₁ st₂, st₁.Sim false st₂ ∧ st.Requests st₁ ∧ st₁.client.rest.length ≤ n'
        ∧ st₁.client.rest.length ≤ m' ∧ inputLoop env n st = (runRequest env st₁).loop env n'
        ∧ inputLoop env m st' = (runRequest env st₂).loop env m' := by
  by_cases hend : st.client.querybuf.length ≤ st.client.qbPos
  · exact .inr (.inl ⟨st, st', inputLoop_end n hend,
      inputLoop_end m (h.client.length_le_iff.mpr hend), h,
      ⟨rfl, rfl⟩, hpc, .inl (Client.rest_eq_nil hend)⟩)
  have hlen := st.client.length_rest
  obtain ⟨n, rfl⟩ : ∃ k, n = k + 1 := ⟨n - 1, by omega⟩
  obtain ⟨m, rfl⟩ : ∃ k, m = k + 1 := ⟨m - 1, by omega⟩
  have hturn := inputTurn_sim env h
  have hstable := @inputTurn_stable _ env st
  rw [inputLoop, if_neg hend, inputLoop, if_neg (mt h.client.length_le_iff.mp hend)]
  generalize inputTurn env st = x at hturn hstable ⊢
  generalize inputTurn env st' = y at hturn ⊢
  cases hturn with
  | fault => exact .inl ⟨rfl, rfl⟩
  | @stop st₁ st₂ hsim hleaves =>
    exact .inr (.inl ⟨st₁, st₂, rfl, rfl, hsim, hleaves.link, hleaves.pending.trans hpc,
      .inr (hstable h.client.pos h.client.bulklen rfl)⟩)
  | @request st₁ st₂ hsim hreq =>
    have hlt := hreq.rest
    exact .inr (.inr ⟨n, n.lt_succ_self, m, st₁, st₂, hsim, hreq, by omega, by omega, rfl, rfl⟩)

/-- **The loop of the main thread** does not depend on the layout of the buffer. -/
theorem inputLoop_sim (henv : env.Spares) {n m : ℕ} (h : st.Sim false st')
    (hread : st.client.flags.pendingRead = false) (hpc : st.client.flags.pendingCommand = false)
    (hn : st.client.rest.length ≤ n) (hm : st.client.rest.length ≤ m) :
    inputLoop env n st = none ∧ inputLoop env m st' = none
      ∨ ∃ s s', inputLoop env n st = some (s, true) ∧ inputLoop env m st' = some (s', true)
        ∧ LoopEnd env false st s s' := by
  induction n using Nat.strong_induction_on generalizing st st' m with
  | _ n ih =>
    rcases inputLoop_step h hpc hn hm with
      hnone | hend | ⟨n', hlt, m', st₁, st₂, hsim, hreq, hn', hm', hloop, hloop'⟩
    · exact .inl hnone
    · exact .inr hend
    · obtain ⟨s, s', hrun, hrun', hsim', hrest, hlink, hp⟩ :=
        runRequest_sim henv hsim (by rw [hreq.flags]; exact hread) (by rw [hreq.flags]; exact hpc)
      rw [hreq.flags] at hlink
      rw [← hrest] at hn' hm'
      rw [hloop, hloop', hrun, hrun']
      rcases ih n' hlt hsim' (hlink.1.trans hread) hp hn' hm' with hnone | ⟨u, u', hu, hu', hend⟩
      · exact .inl hnone
      · exact .inr ⟨u, u', hu, hu', hend.head hlink⟩

/-- The client with a parsed request that is left to the main thread. -/
def State.withPending (st : State W) : State W :=
  { st with client := { st.client with flags := { st.client.flags with pendingCommand := true } } }

theorem runRequest_nil (h : st.client.argv = []) :
    runRequest env st = .again { st with client := resetClient false st.client } :=
  if_pos h

theorem runRequest_pending (h : st.client.argv ≠ []) (hread : st.client.flags.pendingRead = true) :
    runRequest env st = .stop st.withPending := by
  rw [runRequest, if_neg h, if_pos hread]
  rfl

theorem runRequest_execute (h : st.client.argv ≠ []) (hread : st.client.flags.pendingRead = false) :
    runRequest env st = if (processCommandAndResetClient env st).2
      then .gone (processCommandAndResetClient env st).1
      else .again (processCommandAndResetClient env st).1 := by
  rw [runRequest, if_neg h, if_neg (by simp [hread])]

/-- **The loop of an I/O thread** stops where the loop of the main thread does, or
before the first command. -/
theorem threadLoop_sim {n m : ℕ} (h : st.Sim false st')
    (hread : st.client.flags.pendingRead = true) (hpc : st.client.flags.pendingCommand = false)
    (hn : st.client.rest.length ≤ n) (hm : st.client.rest.length ≤ m) :
    inputLoop env n st = none ∧ inputLoop env m st' = none
      ∨ (∃ s s', inputLoop env n st = some (s, true) ∧ inputLoop env m st' = some (s', true)
        ∧ LoopEnd env false st s s')
      ∨ ∃ (s s' : State W) (k : ℕ), inputLoop env n st = some (s.withPending, true) ∧ s.Sim false s'
        ∧ st.client.flags.SameLink s.client.flags ∧ s.client.flags.pendingCommand = false
        ∧ s.client.rest.length ≤ k
        ∧ inputLoop env m st' = if (processCommandAndResetClient env s').2
          then some ((processCommandAndResetClient env s').1, false)
          else inputLoop env k (processCommandAndResetClient env s').1 := by
  induction n using Nat.strong_induction_on generalizing st st' m with
  | _ n ih =>
    rcases inputLoop_step h hpc hn hm with
      hnone | hend | ⟨n', hlt, m', st₁, st₂, hsim, hreq, hn', hm', hloop, hloop'⟩
    · exact .inl hnone
    · exact .inr (.inl hend)
    have hflags := hreq.flags
    have hargv := hsim.client.argv
    rw [hloop, hloop']
    by_cases hnil : st₁.client.argv = []
    · -- an empty request is skipped by both
      rw [runRequest_nil hnil, runRequest_nil (hargv.trans hnil)]
      have hflags' : (resetClient false st₁.client).flags = st.client.flags.reset false := by
        rw [← hflags]
        rfl
      have hsim' : State.Sim false { st₁ with client := resetClient false st₁.client }
          { st₂ with client := resetClient false st₂.client } :=
        ⟨hsim.world, hsim.log, hsim.client.resetClient false⟩
      rcases ih n' hlt hsim' (by rw [hflags']; exact hread) (by rw [hflags']; exact hpc) hn' hm'
        with hnone | ⟨u, u', hu, hu', hend⟩ | ⟨u, u', k, hu, husim, hulink, hup, huk, hu'⟩
      · exact .inl hnone
      · refine .inr (.inl ⟨u, u', hu, hu', hend.head ?_⟩)
        rw [hflags']
        exact ⟨rfl, rfl⟩
      · rw [hflags'] at hulink
        exact .inr (.inr ⟨u, u', k, hu, husim, hulink, hup, huk, hu'⟩)
    · -- the main thread executes the command, and the I/O thread leaves it
      rw [runRequest_pending hnil (by rw [hflags, hread]),
        runRequest_execute (by rwa [hargv]) hsim.client.pendingRead]
      refine .inr (.inr ⟨st₁, st₂, m', rfl, hsim, hflags ▸ ⟨rfl, rfl⟩, hflags ▸ hpc, hm', ?_⟩)
      by_cases hgone : (processCommandAndResetClient env st₂).2 = true
      · rw [if_pos hgone, if_pos hgone]
        rfl
      · rw [if_neg hgone, if_neg hgone]
        rfl

end Loops

/-! ### A read by an I/O thread -/

section Threads

variable {env : Env W} {b : Bool} {st st' s : State W}

theorem Client.Sim.trim {c c' : Client} (h : c.Sim b c') : c'.trim = c.relaid c.rest 0 b := by
  cases h with
  | @relaid q p hpos hbulk hp hq =>
    by_cases hzero : p = 0
    · subst hzero
      subst hq
      exact if_neg (by simp [Client.relaid])
    · have hcut : (c.relaid q p b).trim
          = { c.relaid q p b with querybuf := sdsrange q p (-1), qbPos := 0 } := if_pos hzero
      rw [hcut, sdsrange_neg_one q hp, hq]
      rfl

/-- Both clients share what they differ from. -/
theorem Client.Sim.join {c c₁ c₂ : Client} (h₁ : c.Sim b c₁) (h₂ : c.Sim b c₂) : c₁.Sim b c₂ := by
  have hrest := h₁.rest_eq
  cases h₁ with
  | @relaid q p hpos hbulk hp hq =>
    cases h₂ with
    | @relaid q' p' _ _ hp' hq' =>
      exact .relaid (q := q') (p := p') hp hbulk hp' (hq'.trans hrest.symm)

/-- The buffer is trimmed. -/
def State.trimmed (st : State W) : State W := { st with client := st.client.trim }

theorem State.trimmed_eq (hpos : st.client.qbPos = 0) : st.trimmed = st := by
  rw [State.trimmed, Client.trim, if_neg (by simp [hpos])]

/-- The state after the loop, with the mark or without, and with its buffer trimmed. -/
def State.settled (st : State W) (b : Bool) : State W :=
  { st with client := st.client.relaid st.client.rest 0 b }

theorem State.Sim.trimmed (h : st.Sim b st') : st'.trimmed = st.settled b := by
  rw [State.trimmed, State.settled, h.client.trim, h.world, h.log]

theorem State.Sim.settled (h : st.Sim b st') (b' : Bool) : st.Sim b' (st.settled b') :=
  ⟨rfl, rfl, .relaid h.client.pos h.client.bulklen (Nat.zero_le _) rfl⟩

/-- The loop leaves the client as it is: there is nothing to parse, or nothing can be
done with it. -/
def State.Stalled (env : Env W) (st : State W) : Prop :=
  st.client.rest = [] ∨ ∃ s, inputTurn env st = some (.stop s) ∧ s.trimmed = st

theorem LoopEnd.settled {s' : State W} (h : LoopEnd env b st s s') (b' : Bool) :
    (s.settled b').Stalled env := by
  have hsim := h.sim.settled b'
  rcases h.stalled with hnil | hturn
  · exact .inl hnil
  · have hboth := inputTurn_sim env hsim
    rw [hturn] at hboth
    generalize hx : some (Turn.stop s) = x at hboth
    generalize hy : inputTurn env (s.settled b') = y at hboth
    cases hboth with
    | fault => cases hx
    | @stop s₁ s₂ hs =>
      obtain rfl := Turn.stop.inj (Option.some.inj hx)
      exact .inr ⟨s₂, hy, hs.trimmed⟩
    | @request s₁ s₂ hs =>
      -- a request that is left to the main thread would have been marked
      have hpending := h.pending
      have hrun := (Option.some.inj hx).symm
      by_cases hnil : s₁.client.argv = []
      · rw [runRequest_nil hnil] at hrun
        cases hrun
      by_cases hread : s₁.client.flags.pendingRead = true
      · rw [runRequest_pending hnil hread] at hrun
        cases hrun
        cases hpending
      · rw [runRequest_execute hnil (by simpa using hread)] at hrun
        split at hrun <;> cases hrun

theorem State.Stalled.processInputBuffer (h : st.Stalled env) (hpos : st.client.qbPos = 0) :
    processInputBuffer env st = some st := by
  have htrim := State.trimmed_eq hpos
  rw [Networking.processInputBuffer]
  by_cases hend : st.client.querybuf.length ≤ st.client.qbPos
  · rw [inputLoop_end _ hend]
    exact congrArg some htrim
  rcases h with hnil | ⟨s, hturn, hs⟩
  · have hlen := st.client.length_rest
    rw [hnil, List.length_nil] at hlen
    omega
  · rw [inputLoop_stop st.client.length_rest.le hend hturn]
    exact congrArg some hs

/-- A client between two events: its loop has nothing to do, and no I/O thread holds
it. -/
structure State.Idle (env : Env W) (st : State W) : Prop where
  pos : st.client.qbPos = 0
  bulklen : -1 ≤ st.client.bulklen
  master : st.client.flags.master = false
  pendingRead : st.client.flags.pendingRead = false
  pendingCommand : st.client.flags.pendingCommand = false
  stalled : st.Stalled env

theorem processInputBufferAndReplicate_eq (hmaster : st.client.flags.master = false) :
    processInputBufferAndReplicate env st = processInputBuffer env st := by
  rw [processInputBufferAndReplicate, hmaster]
  rfl

/-- `CLIENT_PENDING_READ` is set or cleared. -/
def State.marked (st : State W) (b : Bool) : State W :=
  { st with client := { st.client with flags := { st.client.flags with pendingRead := b } } }

theorem State.marked_eq (h : st.client.flags.pendingRead = b) : st.marked b = st := by
  subst h
  rfl

theorem LoopEnd.idle {s' : State W} (h : LoopEnd env b st s s')
    (hmaster : st.client.flags.master = false) : (s.settled false).Idle env where
  pos := rfl
  bulklen := h.sim.client.bulklen
  master := h.link.2.trans hmaster
  pendingRead := rfl
  pendingCommand := h.pending
  stalled := h.settled false

theorem processInputBuffer_of_none
    (h : inputLoop env (st.client.querybuf.length - st.client.qbPos) st = none) :
    processInputBuffer env st = none := by
  rw [processInputBuffer, h]
  rfl

theorem processInputBuffer_of_some
    (h : inputLoop env (st.client.querybuf.length - st.client.qbPos) st = some (s, true)) :
    processInputBuffer env st = some s.trimmed := by
  rw [processInputBuffer, h]
  rfl

theorem State.Sim.self {b' : Bool} (h : st.Sim b st') (hread : st.client.flags.pendingRead = b') :
    st.Sim b' st :=
  ⟨rfl, rfl, hread ▸ .refl h.client.pos h.client.bulklen⟩

/-- **The main thread** leaves an idle client, whatever the layout of its buffer. -/
theorem processInputBuffer_idle (henv : env.Spares) {n : ℕ} (h : st.Sim false st')
    (hmaster : st.client.flags.master = false) (hread : st.client.flags.pendingRead = false)
    (hpc : st.client.flags.pendingCommand = false) (hn : st.client.rest.length ≤ n) :
    inputLoop env n st = none ∧ processInputBuffer env st' = none
      ∨ ∃ s : State W, inputLoop env n st = some (s, true)
        ∧ processInputBuffer env st' = some s.trimmed ∧ s.trimmed.Idle env := by
  have hfuel : st.client.rest.length ≤ st'.client.querybuf.length - st'.client.qbPos := by
    rw [← h.client.rest_eq]
    exact st'.client.length_rest.le
  rcases inputLoop_sim henv h hread hpc hn hfuel with ⟨hnone, hnone'⟩ | ⟨s, s', hs, hs', hend⟩
  · exact .inl ⟨hnone, processInputBuffer_of_none hnone'⟩
  · have hself := hend.sim.self (hend.link.1.trans hread)
    rw [processInputBuffer_of_some hs', hend.sim.trimmed, ← hself.trimmed]
    refine .inr ⟨s, hs, rfl, ?_⟩
    rw [hself.trimmed]
    exact hend.idle hmaster

theorem handlePendingRead_eq (h : st.client.flags.pendingCommand = false) :
    handlePendingRead env st = processInputBufferAndReplicate env (st.marked false) :=
  if_neg (by simp [h])

theorem handlePendingRead_withPending (h : st.client.flags.pendingCommand = false) :
    handlePendingRead env st.withPending
      = if (processCommandAndResetClient env (st.marked false)).2 then none
      else processInputBufferAndReplicate env (processCommandAndResetClient env
        (st.marked false)).1 := by
  have hflags : ({ st.client.flags with pendingRead := false, pendingCommand := false } : Flags)
      = { st.client.flags with pendingRead := false } := by
    rw [← h]
  rw [handlePendingRead, if_pos (by rfl)]
  simp only [State.withPending, State.marked, hflags]
  rfl

/-- **Parsing by an I/O thread** and going on by the main thread does what the main
thread does alone. -/
theorem processInputBuffer_thread (henv : env.Spares)
    (hpos : st.client.qbPos ≤ st.client.querybuf.length) (hbulk : -1 ≤ st.client.bulklen)
    (hmaster : st.client.flags.master = false) (hpc : st.client.flags.pendingCommand = false) :
    (processInputBuffer env (st.marked true)).bind (handlePendingRead env)
      = processInputBuffer env (st.marked false) := by
  have hsim : (st.marked true).Sim false (st.marked false) :=
    ⟨rfl, rfl, .relaid hpos hbulk hpos rfl⟩
  have hfuel := (st.marked true).client.length_rest.le
  rcases threadLoop_sim hsim rfl hpc hfuel hfuel with
    ⟨hnone, hnone'⟩ | ⟨s, s', hs, hs', hend⟩ | ⟨s, s', k, hs, hss, hlink, hp, hk, hs'⟩
  · rw [processInputBuffer_of_none hnone, processInputBuffer_of_none hnone']
    rfl
  · -- nothing was left to the main thread, and it finds nothing to do
    have hself : s.Sim true s := hend.sim.self hend.link.1
    have hidle := hend.idle hmaster
    rw [processInputBuffer_of_some hs, processInputBuffer_of_some hs', hself.trimmed,
      hend.sim.trimmed, Option.bind_some, handlePendingRead_eq (by exact hend.pending),
      processInputBufferAndReplicate_eq (by exact hidle.master)]
    exact hidle.stalled.processInputBuffer rfl
  · -- the main thread executes the command that was left to it, and goes on
    have hmark : s.withPending.client.flags.pendingRead = true := hlink.1
    have hself : s.withPending.Sim true s.withPending :=
      ⟨rfl, rfl, hmark ▸ .refl hss.client.pos hss.client.bulklen⟩
    have htrim : s.withPending.trimmed = (s.settled true).withPending := hself.trimmed
    have halive : (processCommandAndResetClient env s').2 = false := henv.alive _ _ _
    have hread' := hss.client.pendingRead
    -- both start from the same bytes
    have hstart : s'.Sim false (s.settled false) :=
      ⟨hss.world.symm, hss.log.symm, hss.client.join (hss.settled false).client⟩
    obtain ⟨hcmd, hfreed⟩ := processCommandAndResetClient_sim env hstart hread'
    obtain ⟨hrest, hlink', hpc'⟩ := s'.client.afterCommand_rest
      (env.processCommand s'.world s'.client.flags s'.client.argv).2
    have hmaster' := hlink'.2.trans (hss.client.master.trans (hlink.2.trans hmaster))
    have hk' : (processCommandAndResetClient env s').1.client.rest.length ≤ k := by
      rw [processCommandAndResetClient, hrest, hss.client.rest_eq]
      exact hk
    rw [halive, if_neg Bool.false_ne_true] at hs'
    rw [processInputBuffer_of_some hs, htrim, Option.bind_some,
      handlePendingRead_withPending (by exact hp),
      show (s.settled true).marked false = s.settled false from rfl, hfreed, halive,
      if_neg Bool.false_ne_true,
      processInputBufferAndReplicate_eq (hcmd.client.master.trans hmaster')]
    rcases processInputBuffer_idle henv hcmd hmaster' (hlink'.1.trans hread')
      (hpc' (henv.pending _ _ _ (hss.client.pendingCommand.trans hp))) hk' with
      ⟨hnone, hnone'⟩ | ⟨u, hu, hu', -⟩
    · rw [hnone', processInputBuffer_of_none (hs'.trans hnone)]
    · rw [hu', processInputBuffer_of_some (hs'.trans hu)]

/-- A read that an I/O thread makes and parses, and that
`handleClientsWithPendingReadsUsingThreads` completes. -/
def threadedRead (env : Env W) (st : State W) (r : ReadResult) : Option (State W) :=
  (readQueryFromClient env (st.marked true) r).bind (handlePendingRead env)

/-- Something was read. -/
def State.arrives (st : State W) (data : Bytes) : State W :=
  { st with client := st.client.arrives data }

/-- The client is scheduled for closing; whatever is in its buffer is not looked at. -/
def State.closing (st : State W) (data : Bytes) : State W :=
  { st with client := freeClientAsync (st.client.arrives data) }

/-- What a read leads to: nothing, closing the client, or parsing. -/
inductive Arrival where
  | nothing
  | close (data : Bytes)
  | parse (data : Bytes)

/-- It depends only on the length of the buffer. -/
def arrival (env : Env W) (querybuf : Bytes) : ReadResult → Arrival
  | .eagain => .nothing
  | .error => .close []
  | .bytes data =>
    if data = [] ∨ env.clientMaxQuerybufLen < (querybuf ++ data).length then .close data
    else .parse data

/-- The rest of `readQueryFromClient`. -/
def State.receive (env : Env W) (st : State W) : Arrival → Option (State W)
  | .nothing => some st
  | .close data => some (st.closing data)
  | .parse data => processInputBuffer env (st.arrives data)

theorem readQueryFromClient_receive (hmaster : st.client.flags.master = false) (r : ReadResult) :
    readQueryFromClient env st r = st.receive env (arrival env st.client.querybuf r) := by
  have hnil : st.closing [] = { st with client := freeClientAsync st.client } := by
    rw [State.closing, Client.arrives, List.append_nil]
  cases r with
  | eagain => rfl
  | error => exact congrArg some hnil.symm
  | bytes data =>
    rw [arrival]
    by_cases hne : data = []
    · subst hne
      exact congrArg some hnil.symm
    by_cases hlen : env.clientMaxQuerybufLen < (st.client.querybuf ++ data).length
    · rw [if_pos (.inr hlen), readQueryFromClient]
      case x => exact hne
      simp only [hmaster, Bool.false_eq_true, if_false, if_pos hlen]
      rfl
    · rw [if_neg (by simp only [hne, hlen, or_self, not_false_eq_true])]
      exact readQueryFromClient_eq hmaster hne (not_lt.mp hlen)

theorem State.Idle.closing (h : st.Idle env) (data : Bytes) : (st.closing data).Idle env where
  pos := h.pos
  bulklen := h.bulklen
  master := h.master
  pendingRead := h.pendingRead
  pendingCommand := h.pendingCommand
  stalled := .inr ⟨_, inputTurn_of_held (by simp [State.closing, freeClientAsync, Flags.held]),
    State.trimmed_eq h.pos⟩

/-- The main thread has nothing to do for an idle client. -/
theorem State.Idle.handlePendingRead (h : st.Idle env) :
    handlePendingRead env (st.marked true) = some st := by
  rw [handlePendingRead_eq (by exact h.pendingCommand),
    processInputBufferAndReplicate_eq (by exact h.master),
    show (st.marked true).marked false = st from State.marked_eq h.pendingRead]
  exact h.stalled.processInputBuffer h.pos

theorem State.Idle.arrives (h : st.Idle env) (data : Bytes) :
    (st.arrives data).client.qbPos ≤ (st.arrives data).client.querybuf.length := by
  show st.client.qbPos ≤ _
  rw [h.pos]
  exact Nat.zero_le _

/-- A read leaves an idle client. -/
theorem readQueryFromClient_idle (henv : env.Spares) (h : st.Idle env) {r : ReadResult}
    (hread : readQueryFromClient env st r = some s) : s.Idle env := by
  rw [readQueryFromClient_receive h.master] at hread
  cases harrival : arrival env st.client.querybuf r with
  | nothing =>
    rw [harrival] at hread
    obtain rfl := Option.some.inj hread
    exact h
  | close data =>
    rw [harrival] at hread
    obtain rfl := Option.some.inj hread
    exact h.closing data
  | parse data =>
    rw [harrival] at hread
    have hsim : (st.arrives data).Sim false (st.arrives data) :=
      ⟨rfl, rfl, h.pendingRead ▸ .refl (h.arrives data) h.bulklen⟩
    rcases processInputBuffer_idle henv hsim h.master h.pendingRead h.pendingCommand le_rfl with
      ⟨-, hnone⟩ | ⟨u, -, hu, hidle⟩
    · cases hnone.symm.trans hread
    · obtain rfl := Option.some.inj (hu.symm.trans hread)
      exact hidle

/-- **A read by an I/O thread** does what a read by the main thread does. -/
theorem threadedRead_eq (henv : env.Spares) (h : st.Idle env) (r : ReadResult) :
    threadedRead env st r = readQueryFromClient env st r := by
  rw [threadedRead, readQueryFromClient_receive (by exact h.master),
    readQueryFromClient_receive h.master,
    show (st.marked true).client.querybuf = st.client.querybuf from rfl]
  cases arrival env st.client.querybuf r with
  | nothing => exact h.handlePendingRead
  | close data => exact (h.closing data).handlePendingRead
  | parse data =>
    have hmark : (st.arrives data).marked false = st.arrives data := State.marked_eq h.pendingRead
    have hthread := processInputBuffer_thread henv (h.arrives data) h.bulklen h.master
      h.pendingCommand
    rw [hmark] at hthread
    exact hthread

end Threads

end Networking
