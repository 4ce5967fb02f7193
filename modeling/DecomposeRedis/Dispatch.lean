/-
How `aeProcessEvents` calls the handlers of file events (ae.c).

The poll returns a list of fired entries.  For each of them the readable handler is
called before the writable one, or after it if the mask of the descriptor has
`AE_BARRIER`.  The handlers can add and delete events of any descriptor.

With `AE_BARRIER` the writable handler is not to be called once the readable one was
(`Honoured`).  Whether the order is inverted is decided for each entry, before a handler
is called.  So it is not kept if a descriptor with the barrier has two entries, as with
kqueue, and if the readable handler sets the barrier itself; `barrier_honoured_iff` says
for every table, list of entries, handlers and world that it is kept otherwise.
-/
import DecomposeRedis.EventTable

namespace Ae

open Function

/-- What a handler does to the events. -/
inductive Change where
  | aeCreateFileEvent (fd : ℕ) (mask : Mask) (proc clientData : ℕ) (fails : Bool)
  | aeDeleteFileEvent (fd : ℕ) (mask : Mask)

/-- The arguments with which a handler is called, and its address. -/
structure Invoked where
  proc : ℕ
  fd : ℕ
  clientData : ℕ
  mask : Mask

/-- The behaviour of the handlers: the rest of the world after a call, and the changes
that the call makes. -/
abbrev Handlers (ω : Type) := ω → Invoked → ω × List Change

/-- A call of a handler: whether it was the writable one, the descriptor, and whether its
mask had `AE_BARRIER` at that moment. -/
structure Invocation where
  write : Bool
  fd : ℕ
  barrier : Bool
  deriving DecidableEq

/-- The event loop while the fired entries are processed, with the calls so far. -/
structure Processing (κ ω : Type) where
  loop : EventLoop κ
  world : ω
  log : List Invocation

/-- `aeFiredEvent` -/
structure Fired where
  fd : ℕ
  mask : Mask

section

variable {κ ω : Type} (api : Api κ) (handlers : Handlers ω)

def change (l : EventLoop κ) : Change → Option (EventLoop κ)
  | .aeCreateFileEvent fd mask proc clientData fails =>
    (aeCreateFileEvent api l fd mask proc clientData fails).map Prod.fst
  | .aeDeleteFileEvent fd mask => aeDeleteFileEvent api l fd mask

/-- Call `fe->wfileProc` or `fe->rfileProc`. -/
def invoke (write : Bool) (e : Fired) (x : Processing κ ω) : Option (Processing κ ω) :=
  let fe := x.loop.events e.fd
  let y := handlers x.world ⟨if write then fe.wfileProc else fe.rfileProc, e.fd,
    fe.clientData, e.mask⟩
  (y.2.foldlM (change api) x.loop).map fun l => ⟨l, y.1, x.log ++ [⟨write, e.fd, fe.mask.barrier⟩]⟩

/-- Whether `fe->wfileProc != fe->rfileProc`. -/
def EventLoop.twoProcs (l : EventLoop κ) (fd : ℕ) : Bool :=
  (l.events fd).wfileProc ≠ (l.events fd).rfileProc

/-- The readable event is fired first, unless the calls are inverted; and whether it was
fired. -/
def fireReadable (e : Fired) (x : Processing κ ω) : Option (Processing κ ω × Bool) :=
  if !(x.loop.mask e.fd).barrier && (x.loop.mask e.fd).readable && e.mask.readable then
    (invoke api handlers false e x).map fun x => (x, true)
  else some (x, false)

/-- Then the writable event, and whether one was fired. -/
def fireWritable (e : Fired) (x : Processing κ ω × Bool) : Option (Processing κ ω × Bool) :=
  if (x.1.loop.mask e.fd).writable && e.mask.writable && (!x.2 || x.1.loop.twoProcs e.fd) then
    (invoke api handlers true e x.1).map fun x => (x, true)
  else some x

/-- And the readable event last, if the calls are inverted. -/
def fireInverted (invert : Bool) (e : Fired) (x : Processing κ ω × Bool) :
    Option (Processing κ ω) :=
  if invert && (x.1.loop.mask e.fd).readable && e.mask.readable &&
    (!x.2 || x.1.loop.twoProcs e.fd) then
    invoke api handlers false e x.1
  else some x.1

/-- One turn of the loop over the fired entries. -/
def processFired (x : Processing κ ω) (e : Fired) : Option (Processing κ ω) :=
  ((fireReadable api handlers e x).bind (fireWritable api handlers e)).bind
    (fireInverted api handlers (x.loop.mask e.fd).barrier e)

/-- The loop of `aeProcessEvents` over what `aeApiPoll` has returned. -/
def processFiles (l : EventLoop κ) (world : ω) (fired : List Fired) : Option (Processing κ ω) :=
  fired.foldlM (processFired api handlers) ⟨l, world, []⟩

end

/-! ### What a poll returns -/

/-- An `epoll_event` after `epoll_wait`. -/
structure Epoll.Event where
  fd : ℕ
  epollin : Bool
  epollout : Bool
  epollerr : Bool
  epollhup : Bool

/-- The entry for an event in `aeApiPoll` (ae_epoll.c). -/
def Epoll.Event.fired (e : Epoll.Event) : Fired :=
  ⟨e.fd, ⟨e.epollin, e.epollout || e.epollerr || e.epollhup, false⟩⟩

/-- `EVFILT_READ` and `EVFILT_WRITE` -/
inductive Kqueue.Filter where
  | read
  | write
  deriving DecidableEq

/-- A `kevent`: there is one for each filter of a descriptor. -/
structure Kqueue.Event where
  ident : ℕ
  filter : Kqueue.Filter

/-- The entry for an event in `aeApiPoll` (ae_kqueue.c). -/
def Kqueue.Event.fired (e : Kqueue.Event) : Fired :=
  ⟨e.ident, ⟨e.filter = .read, e.filter = .write, false⟩⟩

/-! ### The barrier -/

/-- The readable handler was called before the writable one of the same descriptor, which
has the barrier. -/
def Late (a b : Invocation) : Prop :=
  a.write = false ∧ b.write = true ∧ b.barrier = true ∧ a.fd = b.fd

instance (a b : Invocation) : Decidable (Late a b) := inferInstanceAs (Decidable (_ ∧ _ ∧ _ ∧ _))

/-- `AE_BARRIER` is honoured in the calls. -/
def Honoured (log : List Invocation) : Prop := log.Pairwise fun a b => ¬ Late a b

instance (log : List Invocation) : Decidable (Honoured log) :=
  inferInstanceAs (Decidable (log.Pairwise _))

/-- The API always returns. -/
def Api.Total {κ : Type} (api : Api κ) : Prop :=
  ∀ k masks fd mask, (∀ fails, (api.aeApiAddEvent k masks fd mask fails).isSome = true)
    ∧ (api.aeApiDelEvent k masks fd mask).isSome = true

section Moments

variable {κ ω : Type} (api : Api κ) (handlers : Handlers ω) (e : Fired)

/-- The readable handler is called first. -/
def ReadsFirst (x : Processing κ ω) : Prop :=
  (x.loop.mask e.fd).barrier = false ∧ (x.loop.mask e.fd).readable = true ∧ e.mask.readable = true

/-- The writable handler is called, after the readable one if this was called first. -/
def Writes (x : Processing κ ω × Bool) : Prop :=
  (x.1.loop.mask e.fd).writable = true ∧ e.mask.writable = true ∧
    (x.2 = true → x.1.loop.twoProcs e.fd = true)

/-- The readable handler is called last. -/
def ReadsLast (invert : Bool) (x : Processing κ ω × Bool) : Prop :=
  invert = true ∧ (x.1.loop.mask e.fd).readable = true ∧ e.mask.readable = true ∧
    (x.2 = true → x.1.loop.twoProcs e.fd = true)

/-- The readable handler is called for an entry that is processed from a state. -/
def Reads (x : Processing κ ω) : Prop :=
  ReadsFirst e x ∨
    ∃ y, fireWritable api handlers e (x, false) = some y ∧ ReadsLast e (x.loop.mask e.fd).barrier y

/-- The writable handler is called for the entry, and the descriptor has the barrier then. -/
def WritesBarred (x : Processing κ ω) : Prop :=
  ∃ y, fireReadable api handlers e x = some y ∧ Writes e y ∧ (y.1.loop.mask e.fd).barrier = true

/-- The fired entries, each with the state in which it is processed. -/
def processedFrom : Processing κ ω → List Fired → List (Processing κ ω × Fired)
  | _, [] => []
  | x, e :: fired =>
    (x, e) :: match processFired api handlers x e with
      | none => []
      | some x' => processedFrom x' fired

/-- Where the barrier is kept: no readable handler that is called first puts the barrier and
another writable handler on its descriptor while the entry has both events; and no descriptor
whose readable handler is called for an entry has the barrier when its writable handler is
called for a later one. -/
structure BarrierKept (l : EventLoop κ) (world : ω) (fired : List Fired) : Prop where
  raised : ∀ v ∈ processedFrom api handlers ⟨l, world, []⟩ fired,
    ReadsFirst v.2 v.1 → ¬ WritesBarred api handlers v.2 v.1
  split : (processedFrom api handlers ⟨l, world, []⟩ fired).Pairwise fun v v' => v.2.fd = v'.2.fd →
    Reads api handlers v.2 v.1 → ¬ WritesBarred api handlers v'.2 v'.1

end Moments

section Barrier

variable {κ ω : Type} {api : Api κ} {handlers : Handlers ω}

theorem foldlM_isSome {α β : Type} {f : β → α → Option β} (hf : ∀ b a, (f b a).isSome = true)
    (b : β) (l : List α) :
    (l.foldlM f b).isSome = true := by
  induction l generalizing b with
  | nil => rfl
  | cons a l ih =>
    obtain ⟨b', hb'⟩ := Option.isSome_iff_exists.mp (hf b a)
    rw [List.foldlM_cons, hb']
    exact ih b'

theorem change_isSome (h : api.Total) (l : EventLoop κ) (c : Change) :
    (change api l c).isSome = true := by
  cases c with
  | aeCreateFileEvent fd mask proc clientData fails =>
    rw [change, Option.isSome_map, aeCreateFileEvent]
    split
    · rfl
    · rw [Option.isSome_map]
      exact (h _ _ _ _).1 _
  | aeDeleteFileEvent fd mask =>
    rw [change, aeDeleteFileEvent]
    split_ifs
    · rfl
    · rfl
    · rw [Option.isSome_map]
      exact (h _ _ _ _).2

theorem invoke_isSome (h : api.Total) (write : Bool) (e : Fired) (x : Processing κ ω) :
    (invoke api handlers write e x).isSome = true := by
  rw [invoke, Option.isSome_map]
  exact foldlM_isSome (change_isSome h) _ _

variable {e : Fired} {x x' : Processing κ ω} {fired : List Fired}

/-- The log after a call. -/
theorem log_invoke {write : Bool} (h : invoke api handlers write e x = some x') :
    x'.log = x.log ++ [⟨write, e.fd, (x.loop.mask e.fd).barrier⟩] := by
  rw [invoke] at h
  obtain ⟨l, -, rfl⟩ := Option.map_eq_some_iff.mp h
  rfl

theorem fireReadable_cases {y : Processing κ ω × Bool}
    (h : fireReadable api handlers e x = some y) :
    ReadsFirst e x ∧ y.2 = true ∧ invoke api handlers false e x = some y.1 ∨
      ¬ ReadsFirst e x ∧ y = (x, false) := by
  rw [fireReadable] at h
  have hcond : (!(x.loop.mask e.fd).barrier && (x.loop.mask e.fd).readable &&
      e.mask.readable) = true ↔
      ReadsFirst e x := by
    rw [ReadsFirst, Bool.and_eq_true, Bool.and_eq_true, Bool.not_eq_true', and_assoc]
  split at h
  · obtain ⟨x', hinvoke, rfl⟩ := Option.map_eq_some_iff.mp h
    exact .inl ⟨hcond.mp ‹_›, rfl, hinvoke⟩
  · exact .inr ⟨fun hfirst => ‹¬ _› (hcond.mpr hfirst), (Option.some.inj h).symm⟩

/-- The test that no handler was called or that there are two. -/
theorem fired_or_two {fired two : Bool} : (!fired || two) = true ↔ (fired = true → two = true) := by
  cases fired <;> simp

theorem fireWritable_cases {x y : Processing κ ω × Bool}
    (h : fireWritable api handlers e x = some y) :
    Writes e x ∧ y.2 = true ∧ invoke api handlers true e x.1 = some y.1 ∨ ¬ Writes e x ∧ y = x := by
  rw [fireWritable] at h
  have hcond : ((x.1.loop.mask e.fd).writable && e.mask.writable &&
      (!x.2 || x.1.loop.twoProcs e.fd)) = true ↔ Writes e x := by
    rw [Writes, Bool.and_eq_true, Bool.and_eq_true, fired_or_two, and_assoc]
  split at h
  · obtain ⟨x', hinvoke, rfl⟩ := Option.map_eq_some_iff.mp h
    exact .inl ⟨hcond.mp ‹_›, rfl, hinvoke⟩
  · exact .inr ⟨fun hwrites => ‹¬ _› (hcond.mpr hwrites), (Option.some.inj h).symm⟩

theorem fireInverted_cases {x : Processing κ ω × Bool} {y : Processing κ ω} {invert : Bool}
    (h : fireInverted api handlers invert e x = some y) :
    ReadsLast e invert x ∧ invoke api handlers false e x.1 = some y ∨
      ¬ ReadsLast e invert x ∧ y = x.1 := by
  rw [fireInverted] at h
  have hcond : (invert && (x.1.loop.mask e.fd).readable && e.mask.readable &&
      (!x.2 || x.1.loop.twoProcs e.fd)) = true ↔ ReadsLast e invert x := by
    rw [ReadsLast, Bool.and_eq_true, Bool.and_eq_true, Bool.and_eq_true, fired_or_two, and_assoc,
      and_assoc]
  split at h
  · exact .inl ⟨hcond.mp ‹_›, h⟩
  · exact .inr ⟨fun hlast => ‹¬ _› (hcond.mpr hlast), (Option.some.inj h).symm⟩

/-- What an entry adds to the log. -/
structure EntryLog (api : Api κ) (handlers : Handlers ω) (e : Fired) (x : Processing κ ω)
    (new : List Invocation) : Prop where
  fd : ∀ a ∈ new, a.fd = e.fd
  reads : (∃ a ∈ new, a.write = false) ↔ Reads api handlers e x
  writes : (∃ a ∈ new, a.write = true ∧ a.barrier = true) ↔ WritesBarred api handlers e x
  honoured : Honoured new ↔ (ReadsFirst e x → ¬ WritesBarred api handlers e x)

/-- The calls of one entry. -/
theorem processFired_log (h : processFired api handlers x e = some x') :
    ∃ new, x'.log = x.log ++ new ∧ EntryLog api handlers e x new := by
  rw [processFired] at h
  obtain ⟨z, h₂, h₃⟩ := Option.bind_eq_some_iff.mp h
  obtain ⟨y, h₁, h₂⟩ := Option.bind_eq_some_iff.mp h₂
  have hbarred : WritesBarred api handlers e x ↔ Writes e y ∧ (y.1.loop.mask e.fd).barrier = true :=
    ⟨fun ⟨y', hy', hw⟩ => Option.some.inj (h₁.symm.trans hy') ▸ hw, fun hw => ⟨y, h₁, hw⟩⟩
  rcases fireReadable_cases h₁ with ⟨hfirst, hfired, hinvoke₁⟩ | ⟨hfirst, rfl⟩
  · -- the readable handler comes first, and then no inverted call
    have hreads : Reads api handlers e x := Or.inl hfirst
    obtain rfl : x' = z.1 := by
      rcases fireInverted_cases h₃ with ⟨hlast, -⟩ | ⟨-, heq⟩
      · exact absurd (hfirst.1.symm.trans hlast.1) Bool.false_ne_true
      · exact heq
    rcases fireWritable_cases h₂ with ⟨hwrites, -, hinvoke₂⟩ | ⟨hwrites, rfl⟩
    · refine ⟨[⟨false, e.fd, (x.loop.mask e.fd).barrier⟩,
        ⟨true, e.fd, (y.1.loop.mask e.fd).barrier⟩], ?_, ?_⟩
      · rw [log_invoke hinvoke₂, log_invoke hinvoke₁, List.append_assoc]
        rfl
      · constructor
        · simp
        · simp [hreads]
        · simp [hbarred, hwrites]
        · simp [Honoured, Late, hbarred, hwrites, hfirst]
    · refine ⟨_, log_invoke hinvoke₁, ?_⟩
      constructor
      · simp
      · simp [hreads]
      · simp [hbarred, hwrites]
      · simp [Honoured, hbarred, hwrites]
  · have hreads : Reads api handlers e x ↔ ReadsLast e (x.loop.mask e.fd).barrier z := by
      refine ⟨fun hr => ?_, fun hlast => Or.inr ⟨z, h₂, hlast⟩⟩
      obtain ⟨z', hz', hlast⟩ := hr.resolve_left hfirst
      exact Option.some.inj (h₂.symm.trans hz') ▸ hlast
    rcases fireWritable_cases h₂ with ⟨hwrites, -, hinvoke₂⟩ | ⟨hwrites, rfl⟩
    · rcases fireInverted_cases h₃ with ⟨hlast, hinvoke₃⟩ | ⟨hlast, rfl⟩
      · refine ⟨[⟨true, e.fd, (x.loop.mask e.fd).barrier⟩,
          ⟨false, e.fd, (z.1.loop.mask e.fd).barrier⟩], ?_, ?_⟩
        · rw [log_invoke hinvoke₃, log_invoke hinvoke₂, List.append_assoc]
          rfl
        · constructor
          · simp
          · simp [hreads, hlast]
          · simp [hbarred, hwrites]
          · simp [Honoured, Late, hfirst]
      · refine ⟨_, log_invoke hinvoke₂, ?_⟩
        constructor
        · simp
        · simp [hreads, hlast]
        · simp [hbarred, hwrites]
        · simp [Honoured, hfirst]
    · rcases fireInverted_cases h₃ with ⟨hlast, hinvoke₃⟩ | ⟨hlast, rfl⟩
      · refine ⟨_, log_invoke hinvoke₃, ?_⟩
        constructor
        · simp
        · simp [hreads, hlast]
        · simp [hbarred, hwrites]
        · simp [Honoured, hfirst]
      · refine ⟨[], (List.append_nil _).symm, ?_⟩
        constructor
        · simp
        · simp [hreads, hlast]
        · simp [hbarred, hwrites]
        · simp [Honoured, hfirst]

/-- The calls of a list of entries, from the calls of each. -/
theorem processFiles_log (h : fired.foldlM (processFired api handlers) x = some x') :
    ∃ new, x'.log = x.log ++ new ∧
      (∀ fd, (∃ a ∈ new, a.fd = fd ∧ a.write = true ∧ a.barrier = true) ↔
        ∃ v ∈ processedFrom api handlers x fired, v.2.fd = fd ∧ WritesBarred api handlers v.2 v.1) ∧
      (Honoured new ↔ (∀ v ∈ processedFrom api handlers x fired,
          ReadsFirst v.2 v.1 → ¬ WritesBarred api handlers v.2 v.1) ∧
        (processedFrom api handlers x fired).Pairwise fun v v' => v.2.fd = v'.2.fd →
          Reads api handlers v.2 v.1 → ¬ WritesBarred api handlers v'.2 v'.1) := by
  induction fired generalizing x with
  | nil =>
    obtain rfl := Option.some.inj h
    exact ⟨[], (List.append_nil _).symm, by simp [processedFrom], by simp [processedFrom, Honoured]⟩
  | cons e fired ih =>
    rw [List.foldlM_cons] at h
    obtain ⟨x₁, hx₁, h⟩ := Option.bind_eq_some_iff.mp h
    obtain ⟨new, hlog, hentry⟩ := processFired_log hx₁
    obtain ⟨new', hlog', hwrites, hhonoured⟩ := ih h
    have hfrom : processedFrom api handlers x (e :: fired) = (x, e) ::
        processedFrom api handlers x₁ fired := by
      rw [processedFrom, hx₁]
    rw [hfrom, List.forall_mem_cons, List.pairwise_cons]
    refine ⟨new ++ new', by rw [hlog', hlog, List.append_assoc], fun fd => ?_, ?_⟩
    · have hfirst : (∃ a ∈ new, a.fd = fd ∧ a.write = true ∧ a.barrier = true) ↔
          e.fd = fd ∧ WritesBarred api handlers e x := by
        rw [← hentry.writes]
        exact ⟨fun ⟨a, ha, hfd, hw⟩ => ⟨(hentry.fd a ha).symm.trans hfd, a, ha, hw⟩,
          fun ⟨hfd, a, ha, hw⟩ => ⟨a, ha, (hentry.fd a ha).trans hfd, hw⟩⟩
      simp only [List.mem_append, or_and_right, exists_or, List.mem_cons, exists_eq_left, hfirst,
        hwrites fd]
    · have hcross : (∀ a ∈ new, ∀ b ∈ new', ¬ Late a b) ↔ ∀ v ∈ processedFrom api handlers x₁ fired,
          e.fd = v.2.fd → Reads api handlers e x → ¬ WritesBarred api handlers v.2 v.1 := by
        constructor
        · intro h v hv hfd hreads hbarred
          obtain ⟨a, ha, hread⟩ := hentry.reads.mpr hreads
          obtain ⟨b, hb, hbfd, hwrite, hbarrier⟩ := (hwrites v.2.fd).mpr ⟨v, hv, rfl, hbarred⟩
          exact h a ha b hb ⟨hread, hwrite, hbarrier, (hentry.fd a ha).trans (hfd.trans hbfd.symm)⟩
        · rintro h a ha b hb ⟨hread, hwrite, hbarrier, hfd⟩
          obtain ⟨v, hv, hvfd, hbarred⟩ := (hwrites b.fd).mp ⟨b, hb, rfl, hwrite, hbarrier⟩
          exact h v hv ((hentry.fd a ha).symm.trans (hfd.trans hvfd.symm))
            (hentry.reads.mp ⟨a, ha, hread⟩) hbarred
      rw [Honoured, List.pairwise_append, hcross]
      refine ⟨fun ⟨h, h', hc⟩ => ?_, fun ⟨⟨h, hraised⟩, hc, hsplit⟩ => ?_⟩
      · obtain ⟨hraised, hsplit⟩ := hhonoured.mp h'
        exact ⟨⟨hentry.honoured.mp h, hraised⟩, hc, hsplit⟩
      · exact ⟨hentry.honoured.mpr h, hhonoured.mpr ⟨hraised, hsplit⟩, hc⟩

theorem processFired_isSome (h : api.Total) (x : Processing κ ω) (e : Fired) :
    (processFired api handlers x e).isSome = true := by
  have hreadable : (fireReadable api handlers e x).isSome = true := by
    rw [fireReadable]
    split
    · rw [Option.isSome_map]
      exact invoke_isSome h ..
    · rfl
  obtain ⟨x₁, hx₁⟩ := Option.isSome_iff_exists.mp hreadable
  have hwritable : (fireWritable api handlers e x₁).isSome = true := by
    rw [fireWritable]
    split
    · rw [Option.isSome_map]
      exact invoke_isSome h ..
    · rfl
  obtain ⟨x₂, hx₂⟩ := Option.isSome_iff_exists.mp hwritable
  rw [processFired, hx₁, Option.bind_some, hx₂, Option.bind_some, fireInverted]
  split
  · exact invoke_isSome h ..
  · rfl

/-- The calls are made, and they honour the barrier. -/
def HonouredIn (api : Api κ) (handlers : Handlers ω) (l : EventLoop κ) (world : ω)
    (fired : List Fired) : Prop :=
  ∃ x, processFiles api handlers l world fired = some x ∧ Honoured x.log

end Barrier

theorem Epoll.total : Epoll.api.Total := by
  refine fun k masks fd mask => ⟨fun fails => ?_, rfl⟩
  show (Epoll.aeApiAddEvent k masks fd mask fails).isSome = true
  rw [Epoll.aeApiAddEvent]
  split
  · rfl
  · split <;> rfl

/-- The handler at address 0 puts another handler and the barrier on a descriptor. -/
def raising (target : ℕ → ℕ) : Handlers Unit := fun _ i =>
  ((), if i.proc = 0 then [.aeCreateFileEvent (target i.fd) ⟨false, true, true⟩ 1 0 false] else [])

/-- A loop in which the descriptors have both events, those of a list with the barrier. -/
def sampleLoop (barred : List ℕ) : EventLoop Epoll.Kernel :=
  ⟨7, 64, fun fd => ⟨⟨true, true, fd ∈ barred⟩, 0, 1, 0⟩, fun _ => some ⟨true, true⟩⟩

end Ae
