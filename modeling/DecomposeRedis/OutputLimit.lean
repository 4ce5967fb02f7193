/-
The limits of the output (networking.c, `checkClientOutputBufferLimits`).

A client over the soft limit is to be closed when it was over it for more than
`soft_limit_seconds`.  The time at which it got there is kept in
`obuf_soft_limit_reached_time`, and it is reset when the check finds the client below the
limit.  But the check is made only when something is added to the reply list: a client
whose list was sent keeps the old time, and is closed at once when its list next grows to
the limit (`closed_at_once`).

The usage after each step is kept in a history.  If no step takes the client from below
the limit to it while a time is recorded (`Fresh`), the limit closes only clients that
were over it all the time (`soft_limit_continuous`).
-/
import DecomposeRedis.ReplyOrder

namespace Networking

open Sds Runs

/-! ### The check -/

/-- The classes of clients. -/
inductive ClientType where
  | normal
  | slave
  | pubsub
  | master
  deriving DecidableEq

/-- `getClientType` -/
def getClientType (f : ReplyFlags) (monitor pubsub : Bool) : ClientType :=
  if f.master then .master
  else if f.slave && !monitor then .slave
  else if pubsub then .pubsub
  else .normal

/-- `clientBufferLimitsConfig` -/
structure ObufLimit where
  hardLimitBytes : ℕ
  softLimitBytes : ℕ
  softLimitSeconds : ℤ

/-- The output of a client with what its limits need. -/
structure Limited where
  out : Output
  obufSoftLimitReachedTime : ℤ
  closeAsap : Bool

/-- A client as `createClient` makes it. -/
def Limited.fresh : Limited := ⟨.empty, 0, false⟩

/-- What is done to the output of a client. -/
inductive LimitCall where
  | addReplyProto (s : Bytes) (slack : ℕ)
  | addReplyDeferredLen (node : ℕ)
  | setDeferredAggregateLen (node : Option ℕ) (length : ℤ) (tag : UInt8) (slack : ℕ)
  | addReplyFromClient (src : Output) (slack : ℕ)
  | writeToClient (ws : List WriteResult)
  | asyncCloseClientOnOutputBufferLimitReached

section

-- `list_item_size` is the size of two structs
variable (listItemSize netMaxWritesPerEvent : ℕ) (limits : ClientType → ObufLimit) (f : ReplyFlags)
  (monitor pubsub : Bool)

/-- `getClientOutputBufferMemoryUsage` -/
def getClientOutputBufferMemoryUsage (out : Output) : ℕ :=
  out.replyBytes + listItemSize * out.reply.length

/-- The limits of the client; a master has those of normal clients. -/
def obufLimit : ObufLimit :=
  match getClientType f monitor pubsub with
  | .master => limits .normal
  | type => limits type

/-- `checkClientOutputBufferLimits` -/
def checkClientOutputBufferLimits (unixtime : ℤ) (c : Limited) : Limited × Bool :=
  let usedMem := getClientOutputBufferMemoryUsage listItemSize c.out
  let limit := obufLimit limits f monitor pubsub
  let hard := limit.hardLimitBytes ≠ 0 && limit.hardLimitBytes ≤ usedMem
  if limit.softLimitBytes ≠ 0 && limit.softLimitBytes ≤ usedMem then
    if c.obufSoftLimitReachedTime = 0 then ({ c with obufSoftLimitReachedTime := unixtime }, hard)
    else (c, limit.softLimitSeconds < unixtime - c.obufSoftLimitReachedTime || hard)
  else ({ c with obufSoftLimitReachedTime := 0 }, hard)

/-- `freeClientAsync`, and whether the client is scheduled by it. -/
def Limited.freeClientAsync (c : Limited) : Limited × Bool :=
  if c.closeAsap || f.lua then (c, false) else ({ c with closeAsap := true }, true)

/-- `asyncCloseClientOnOutputBufferLimitReached`, and whether the client is scheduled to be
closed. -/
def asyncCloseClientOnOutputBufferLimitReached (unixtime : ℤ) (c : Limited) : Limited × Bool :=
  if f.fd = -1 then (c, false)
  else if c.out.replyBytes = 0 || c.closeAsap then (c, false)
  else
    let x := checkClientOutputBufferLimits listItemSize limits f monitor pubsub unixtime c
    if x.2 then x.1.freeClientAsync f else (x.1, false)

/-- `addReplyProto`; the check is made when the reply goes to the list. -/
def Limited.addReplyProto (unixtime : ℤ) (c : Limited) (s : Bytes) (slack : ℕ) : Limited × Bool :=
  let c' : Limited := { c with out := Networking.addReplyProto f c.out s slack }
  if prepareClientToWrite f && (addReplyToBuffer f c.out s).isNone then
    asyncCloseClientOnOutputBufferLimitReached listItemSize limits f monitor pubsub unixtime c'
  else (c', false)

/-- A call, and whether the limit schedules the client to be closed. -/
def limitCall (unixtime : ℤ) (c : Limited) : LimitCall → Except Fault (Limited × Bool)
  | .addReplyProto s slack =>
    .ok (c.addReplyProto listItemSize limits f monitor pubsub unixtime s slack)
  | .addReplyDeferredLen node => .ok ({ c with out := (addReplyDeferredLen f c.out node).1 }, false)
  | .setDeferredAggregateLen none _ _ _ => .ok (c, false)
  | .setDeferredAggregateLen (some node) length tag slack =>
    (setDeferredAggregateLen c.out (some node) length tag slack).map fun out =>
      asyncCloseClientOnOutputBufferLimitReached listItemSize limits f monitor pubsub unixtime
        { c with out := out }
  | .addReplyFromClient src slack =>
    if !prepareClientToWrite f then .ok (c, false)
    else
      let x := c.addReplyProto listItemSize limits f monitor pubsub unixtime src.buf slack
      .ok ({ x.1 with out := (addReplyFromClient f c.out src slack).1 }, x.2)
  | .writeToClient ws =>
    (writeToClient netMaxWritesPerEvent f ws c.out).map fun x =>
      let c' : Limited := { c with out := x.1 }
      (if x.2.2 then (c'.freeClientAsync f).1 else c', false)
  | .asyncCloseClientOnOutputBufferLimitReached =>
    .ok (asyncCloseClientOnOutputBufferLimitReached listItemSize limits f monitor pubsub unixtime c)

/-- The output after a call, which the limits do not change. -/
def callOutput (out : Output) : LimitCall → Except Fault Output
  | .addReplyProto s slack => .ok (addReplyProto f out s slack)
  | .addReplyDeferredLen node => .ok (addReplyDeferredLen f out node).1
  | .setDeferredAggregateLen node length tag slack =>
    setDeferredAggregateLen out node length tag slack
  | .addReplyFromClient src slack => .ok (addReplyFromClient f out src slack).1
  | .writeToClient ws => (writeToClient netMaxWritesPerEvent f ws out).map Prod.fst
  | .asyncCloseClientOnOutputBufferLimitReached => .ok out

/-- A client with the time and the usage after each step, the last one first. -/
structure Watched where
  client : Limited
  history : List (ℤ × ℕ)

/-- A call at a time. -/
structure LimitStep where
  unixtime : ℤ
  call : LimitCall

def limitStep (w : Watched) (step : LimitStep) : Option (Watched × Bool) :=
  (limitCall listItemSize netMaxWritesPerEvent limits f monitor pubsub step.unixtime
    w.client step.call).toOption.map
    fun x => (⟨x.1, (step.unixtime, getClientOutputBufferMemoryUsage
      listItemSize x.1.out) :: w.history⟩, x.2)

/-- If a step takes the client from below the soft limit to it, then no time is recorded. -/
def Fresh (w : Watched) (step : LimitStep) : Prop :=
  let limit := obufLimit limits f monitor pubsub
  getClientOutputBufferMemoryUsage listItemSize w.client.out < limit.softLimitBytes →
    ∀ out, callOutput netMaxWritesPerEvent f w.client.out step.call = .ok out →
      limit.softLimitBytes ≤ getClientOutputBufferMemoryUsage listItemSize out →
      w.client.obufSoftLimitReachedTime = 0

end

/-- The usage was at least `bytes` in all of a history from some moment on, more than
`seconds` before the time `t`. -/
def OverFor (bytes : ℕ) (seconds : ℤ) (history : List (ℤ × ℕ)) (t : ℤ) : Prop :=
  ∃ recent start before, history = recent ++ start :: before ∧ seconds < t - start.1 ∧
    ∀ moment ∈ recent ++ [start], bytes ≤ moment.2

/-! ### Continuity -/

section

variable {listItemSize netMaxWritesPerEvent : ℕ} {limits : ClientType → ObufLimit} {f : ReplyFlags}
  {monitor pubsub : Bool} {unixtime : ℤ} {c c' : Limited} {scheduled : Bool}

/-- What the check does to the recorded time, and when it schedules the client, if there is
no hard limit. -/
structure Checks (limit : ObufLimit) (unixtime : ℤ) (usage : ℕ) (c c' : Limited)
    (scheduled : Bool) : Prop where
  time_eq : c'.obufSoftLimitReachedTime = c.obufSoftLimitReachedTime ∨
    c'.obufSoftLimitReachedTime = 0 ∨
    c'.obufSoftLimitReachedTime = unixtime ∧ limit.softLimitBytes ≤ usage
  was_over : scheduled = true → c.obufSoftLimitReachedTime ≠ 0 ∧
    limit.softLimitSeconds < unixtime - c.obufSoftLimitReachedTime ∧ limit.softLimitBytes ≤ usage

theorem Checks.none {limit : ObufLimit} {usage : ℕ}
    (h : c'.obufSoftLimitReachedTime = c.obufSoftLimitReachedTime) :
    Checks limit unixtime usage c c' false := ⟨.inl h, nofun⟩

theorem Checks.mono {limit : ObufLimit} {usage usage' : ℕ}
    (h : Checks limit unixtime usage c c' scheduled) (hle : usage ≤ usage') :
    Checks limit unixtime usage' c c' scheduled := by
  refine ⟨h.time_eq.imp_right (Or.imp_right fun ht => ⟨ht.1, ht.2.trans hle⟩), fun hs => ?_⟩
  obtain ⟨hne, hlt, husage⟩ := h.was_over hs
  exact ⟨hne, hlt, husage.trans hle⟩

theorem check_checks (hhard : (obufLimit limits f monitor pubsub).hardLimitBytes = 0)
    (h : checkClientOutputBufferLimits listItemSize limits f monitor pubsub unixtime c
      = (c', scheduled)) :
    c'.out = c.out ∧ Checks (obufLimit limits f monitor pubsub) unixtime
      (getClientOutputBufferMemoryUsage listItemSize c.out) c c' scheduled := by
  simp only [checkClientOutputBufferLimits, hhard, ne_eq, not_true_eq_false, decide_false,
    Bool.false_and, Bool.or_false] at h
  split_ifs at h with hsoft htime
  · -- the limit is reached for the first time
    obtain ⟨rfl, rfl⟩ := Prod.mk.inj h
    rw [Bool.and_eq_true, decide_eq_true_eq, decide_eq_true_eq] at hsoft
    exact ⟨rfl, .inr (.inr ⟨rfl, hsoft.2⟩), nofun⟩
  · obtain ⟨rfl, rfl⟩ := Prod.mk.inj h
    rw [Bool.and_eq_true, decide_eq_true_eq, decide_eq_true_eq] at hsoft
    exact ⟨rfl, .inl rfl, fun hlt => ⟨htime, of_decide_eq_true hlt, hsoft.2⟩⟩
  · obtain ⟨rfl, rfl⟩ := Prod.mk.inj h
    exact ⟨rfl, .inr (.inl rfl), nofun⟩

theorem asyncClose_checks (hhard : (obufLimit limits f monitor pubsub).hardLimitBytes = 0)
    (h : asyncCloseClientOnOutputBufferLimitReached listItemSize limits f monitor pubsub unixtime c
      = (c', scheduled)) :
    c'.out = c.out ∧ Checks (obufLimit limits f monitor pubsub) unixtime
      (getClientOutputBufferMemoryUsage listItemSize c.out) c c' scheduled := by
  have hcheck := check_checks hhard
    (Prod.eta (checkClientOutputBufferLimits listItemSize limits f monitor pubsub unixtime c)).symm
  rw [asyncCloseClientOnOutputBufferLimitReached] at h
  dsimp only at h
  split_ifs at h with hfd hskip hover
  · obtain ⟨rfl, rfl⟩ := Prod.mk.inj h
    exact ⟨rfl, .none rfl⟩
  · obtain ⟨rfl, rfl⟩ := Prod.mk.inj h
    exact ⟨rfl, .none rfl⟩
  · obtain ⟨hout, htime, hwas⟩ := hcheck
    rw [Limited.freeClientAsync] at h
    split_ifs at h
    · obtain ⟨rfl, rfl⟩ := Prod.mk.inj h
      exact ⟨hout, htime, nofun⟩
    · obtain ⟨rfl, rfl⟩ := Prod.mk.inj h
      exact ⟨hout, htime, fun _ => hwas hover⟩
  · obtain ⟨rfl, rfl⟩ := Prod.mk.inj h
    obtain ⟨hout, htime, -⟩ := hcheck
    exact ⟨hout, htime, nofun⟩

theorem addReplyProto_checks {s : Bytes} {slack : ℕ}
    (hhard : (obufLimit limits f monitor pubsub).hardLimitBytes = 0)
    (h : c.addReplyProto listItemSize limits f monitor pubsub unixtime s slack = (c', scheduled)) :
    c'.out = addReplyProto f c.out s slack ∧ Checks (obufLimit limits f monitor pubsub) unixtime
      (getClientOutputBufferMemoryUsage listItemSize c'.out) c c' scheduled := by
  rw [Limited.addReplyProto] at h
  split_ifs at h
  · obtain ⟨hout, hchecks⟩ := asyncClose_checks hhard h
    exact ⟨hout, hout ▸ ⟨hchecks.time_eq, hchecks.was_over⟩⟩
  · obtain ⟨rfl, rfl⟩ := Prod.mk.inj h
    exact ⟨rfl, .none rfl⟩

/-- Each call makes the check at most once, when the usage is not more than after it. -/
theorem limitCall_checks {call : LimitCall}
    (hhard : (obufLimit limits f monitor pubsub).hardLimitBytes = 0)
    (h : limitCall listItemSize netMaxWritesPerEvent limits f monitor pubsub unixtime c call
      = .ok (c', scheduled)) :
    callOutput netMaxWritesPerEvent f c.out call = .ok c'.out ∧
      Checks (obufLimit limits f monitor pubsub) unixtime
        (getClientOutputBufferMemoryUsage listItemSize c'.out) c c' scheduled := by
  cases call with
  | addReplyProto s slack =>
    obtain ⟨hout, hchecks⟩ := addReplyProto_checks hhard (Except.ok.inj h)
    exact ⟨congrArg Except.ok hout.symm, hchecks⟩
  | addReplyDeferredLen node =>
    obtain ⟨⟩ := h
    exact ⟨rfl, .none rfl⟩
  | setDeferredAggregateLen node length tag slack =>
    rcases node with _ | node
    · obtain ⟨⟩ := h
      exact ⟨rfl, .none rfl⟩
    · rw [limitCall] at h
      rw [callOutput]
      rcases hset : setDeferredAggregateLen c.out (some node) length tag slack with e | out
      · rw [hset] at h
        cases h
      · rw [hset] at h
        obtain ⟨hout, hchecks⟩ := asyncClose_checks hhard (Except.ok.inj h)
        exact ⟨congrArg Except.ok hout.symm, hout ▸ ⟨hchecks.time_eq, hchecks.was_over⟩⟩
  | addReplyFromClient src slack =>
    rw [limitCall] at h
    split_ifs at h with hprepare
    · obtain ⟨⟩ := h
      exact ⟨by rw [callOutput, addReplyFromClient, if_pos hprepare], .none rfl⟩
    · -- the reply list of the other client comes after the check
      obtain ⟨⟩ := h
      obtain ⟨hout, hchecks⟩ := addReplyProto_checks hhard
        (Prod.eta (c.addReplyProto listItemSize limits f monitor pubsub unixtime
          src.buf slack)).symm
      refine ⟨rfl, Checks.mono ⟨hchecks.time_eq, hchecks.was_over⟩ ?_⟩
      rw [hout, addReplyFromClient, if_neg hprepare]
      simp only [getClientOutputBufferMemoryUsage, List.length_append]
      gcongr <;> omega
  | writeToClient ws =>
    rw [limitCall] at h
    rw [callOutput]
    rcases hwrite : writeToClient netMaxWritesPerEvent f ws c.out with e | x
    · rw [hwrite] at h
      cases h
    · rw [hwrite] at h
      obtain ⟨⟩ := h
      rw [Limited.freeClientAsync]
      split_ifs <;> exact ⟨rfl, .none rfl⟩
  | asyncCloseClientOnOutputBufferLimitReached =>
    obtain ⟨hout, hchecks⟩ := asyncClose_checks hhard (Except.ok.inj h)
    exact ⟨congrArg Except.ok hout.symm, hout ▸ ⟨hchecks.time_eq, hchecks.was_over⟩⟩

/-- If the client is at the limit and a time is recorded, then it has been at the limit
since then. -/
def Since (listItemSize bytes : ℕ) (w : Watched) : Prop :=
  w.client.obufSoftLimitReachedTime ≠ 0 → bytes ≤ getClientOutputBufferMemoryUsage listItemSize
    w.client.out →
    ∃ recent start before, w.history = recent ++ start :: before ∧
      start.1 = w.client.obufSoftLimitReachedTime ∧ ∀ moment ∈ recent ++ [start], bytes ≤ moment.2

variable {w w' : Watched} {step : LimitStep}

/-- A step keeps the recorded time right, and what it schedules was over the limit. -/
theorem limitStep_since (hhard : (obufLimit limits f monitor pubsub).hardLimitBytes = 0)
    (hsince : Since listItemSize (obufLimit limits f monitor pubsub).softLimitBytes w)
    (hfresh : Fresh listItemSize netMaxWritesPerEvent limits f monitor pubsub w step)
    (h : limitStep listItemSize netMaxWritesPerEvent limits f monitor pubsub w step
      = some (w', scheduled)) :
    Since listItemSize (obufLimit limits f monitor pubsub).softLimitBytes w' ∧
      (scheduled = true → OverFor (obufLimit limits f monitor pubsub).softLimitBytes
        (obufLimit limits f monitor pubsub).softLimitSeconds w'.history step.unixtime) := by
  obtain ⟨x, hx, heq⟩ := Option.map_eq_some_iff.mp h
  obtain ⟨rfl, rfl⟩ := Prod.mk.inj heq
  have hcall : limitCall listItemSize netMaxWritesPerEvent limits f monitor pubsub step.unixtime
      w.client step.call =
      .ok (x.1, x.2) := by
    rcases hc : limitCall listItemSize netMaxWritesPerEvent limits f monitor pubsub step.unixtime
      w.client step.call
      with e | y
    · rw [hc] at hx
      cases hx
    · rw [hc] at hx
      obtain rfl := Option.some.inj hx
      rfl
  obtain ⟨hout, hchecks⟩ := limitCall_checks hhard hcall
  -- a time that was recorded before goes back to when the limit was reached
  have hbefore : w.client.obufSoftLimitReachedTime ≠ 0 →
      (obufLimit limits f monitor pubsub).softLimitBytes
        ≤ getClientOutputBufferMemoryUsage listItemSize x.1.out →
      ∃ recent start before, (step.unixtime, getClientOutputBufferMemoryUsage
        listItemSize x.1.out) :: w.history =
        recent ++ start :: before ∧ start.1 = w.client.obufSoftLimitReachedTime ∧
        ∀ moment ∈ recent ++ [start], (obufLimit limits f monitor pubsub).softLimitBytes
          ≤ moment.2 := by
    intro hne hle
    have hover : (obufLimit limits f monitor pubsub).softLimitBytes ≤
        getClientOutputBufferMemoryUsage listItemSize w.client.out := by
      by_contra hlt
      exact hne (hfresh (not_le.mp hlt) x.1.out hout hle)
    obtain ⟨recent, start, before, hhistory, hstart, hall⟩ := hsince hne hover
    exact ⟨_ :: recent, start, before, by rw [hhistory]; rfl, hstart,
      List.forall_mem_cons.mpr ⟨hle, hall⟩⟩
  constructor
  · intro hne hle
    rcases hchecks.time_eq with htime | htime | ⟨htime, -⟩
    · obtain ⟨recent, start, before, hhistory, hstart, hall⟩ := hbefore (htime ▸ hne) hle
      exact ⟨recent, start, before, hhistory, hstart.trans htime.symm, hall⟩
    · exact absurd htime hne
    · exact ⟨[], _, w.history, rfl, htime.symm, by simpa using hle⟩
  · intro hscheduled
    obtain ⟨hne, hlt, hle⟩ := hchecks.was_over hscheduled
    obtain ⟨recent, start, before, hhistory, hstart, hall⟩ := hbefore hne hle
    exact ⟨recent, start, before, hhistory, hstart ▸ hlt, hall⟩

/-- In a run of which every step is `Fresh`, a client that the soft limit schedules to be
closed was over the limit for more than `soft_limit_seconds`. -/
theorem soft_limit_continuous (hhard : (obufLimit limits f monitor pubsub).hardLimitBytes = 0)
    {steps : List LimitStep} {scheduleds : List Bool}
    (hmeets : Meets (limitStep listItemSize netMaxWritesPerEvent limits f monitor pubsub)
      (Fresh listItemSize netMaxWritesPerEvent limits f monitor pubsub) ⟨.fresh, []⟩
        (steps ++ [step]))
    (hrun : run (limitStep listItemSize netMaxWritesPerEvent limits f monitor pubsub)
      ⟨.fresh, []⟩ steps =
      some (w, scheduleds))
    (hstep : limitStep listItemSize netMaxWritesPerEvent limits f monitor pubsub w step
      = some (w', true)) :
    OverFor (obufLimit limits f monitor pubsub).softLimitBytes
      (obufLimit limits f monitor pubsub).softLimitSeconds
      w'.history step.unixtime := by
  obtain ⟨hmeets, hlast⟩ := hmeets.of_append hrun
  have hsince : Since listItemSize (obufLimit limits f monitor pubsub).softLimitBytes w := by
    refine run_safe ?_ (fun hne => absurd rfl hne) hmeets hrun
    intro s i s' o hs hi hs'
    exact (limitStep_since hhard hs hi hs').1
  exact (limitStep_since hhard hsince hlast.1 hstep).2 rfl

end

/-- At most 40 bytes for 60 seconds. -/
def sixtySeconds : ClientType → ObufLimit := fun _ => ⟨0, 40, 60⟩

/-- A reply of one element that goes to the list. -/
def replyAt (unixtime : ℤ) : List LimitStep :=
  [⟨unixtime, .addReplyDeferredLen 0⟩, ⟨unixtime, .setDeferredAggregateLen (some 0) 1 42 0⟩]

/-- A client after its reply. -/
def afterReply : Watched :=
  ⟨⟨⟨[], by decide, [.block (.alloc [42, 49, 13, 10] 0 0)], 0, 4⟩, 100, false⟩,
    [(100, 44), (100, 40)]⟩

/-- A client that does not read its reply is closed. -/
theorem soft_limit_continuous_unread :
    run (limitStep 40 65536 sixtySeconds plainFlags false false) ⟨.fresh, []⟩ (replyAt 100) =
      some (afterReply, [false, false]) ∧
    OverFor 40 60 [(161, 44), (100, 44), (100, 40)] 161 := by
  refine ⟨rfl, ?_⟩
  have hmeets : Meets (limitStep 40 65536 sixtySeconds plainFlags false false)
      (Fresh 40 65536 sixtySeconds plainFlags false false) ⟨.fresh, []⟩
      (replyAt 100 ++ [⟨161, .asyncCloseClientOnOutputBufferLimitReached⟩]) := by
    refine ⟨fun _ _ _ _ => rfl, fun s o hs => ?_⟩
    obtain ⟨⟩ := hs
    refine ⟨fun _ _ _ _ => rfl, fun s o hs => ?_⟩
    obtain ⟨⟩ := hs
    exact ⟨fun hlt => absurd hlt (by decide), fun _ _ _ => trivial⟩
  have hstep : limitStep 40 65536 sixtySeconds plainFlags false false afterReply
      ⟨161, .asyncCloseClientOnOutputBufferLimitReached⟩ =
        some (⟨{ afterReply.client with closeAsap := true },
          [(161, 44), (100, 44), (100, 40)]⟩, true) := rfl
  exact soft_limit_continuous rfl hmeets rfl hstep

/-- A client that read its reply is closed by its next reply, 900 seconds later. -/
theorem closed_at_once :
    ((run (limitStep 40 65536 sixtySeconds plainFlags false false) ⟨.fresh, []⟩
        (replyAt 100 ++ ⟨101, .writeToClient [.accepts 100 false]⟩ :: replyAt 1000)).map
      fun x => (x.1.history, x.2)) =
        some ([(1000, 44), (1000, 40), (101, 0), (100, 44), (100, 40)],
          [false, false, false, false, true]) ∧
      ¬OverFor 40 60 [(1000, 44), (1000, 40), (101, 0), (100, 44), (100, 40)] 1000 := by
  refine ⟨by decide +kernel, ?_⟩
  rintro ⟨recent, start, before, heq, hlt, hall⟩
  -- the history goes back to the moment when everything was sent
  rcases recent with _ | ⟨m, _ | ⟨m', _ | ⟨m'', recent⟩⟩⟩
  · simp only [List.nil_append, List.cons.injEq] at heq
    rw [← heq.1] at hlt
    omega
  · simp only [List.cons_append, List.nil_append, List.cons.injEq] at heq
    rw [← heq.2.1] at hlt
    omega
  · simp only [List.cons_append, List.nil_append, List.cons.injEq] at heq
    have := hall start (by simp)
    rw [← heq.2.2.1] at this
    omega
  · simp only [List.cons_append, List.cons.injEq] at heq
    have := hall m'' (by simp)
    rw [← heq.2.2.1] at this
    omega

end Networking
