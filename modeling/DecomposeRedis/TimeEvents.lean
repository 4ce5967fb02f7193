/-
The time events of the event loop (ae.c).

The time events are nodes of a doubly linked list in memory, and a new one is put at its
head.  A time event is deleted by setting its id to -1; `processTimeEvents` takes such
events out of the list when it comes to them, and calls their finalizers.

An address is not used twice.  A function is `none` where a node is used that was freed,
or where a loop over the list does not end.  The callbacks are any functions of a world
and of the event loop, and they create and delete time events.  What happens is recorded
in a log.
-/
import Mathlib.Algebra.Order.Ring.Int
import Mathlib.Logic.Function.Basic

namespace Ae

open Function

/-- The time as `aeGetTime` returns it. -/
structure Time where
  sec : ℤ
  ms : ℤ
  deriving DecidableEq

/-- `aeTimeEvent` -/
structure TimeEvent where
  id : ℤ
  whenSec : ℤ
  whenMs : ℤ
  timeProc : ℕ
  finalizerProc : Option ℕ
  clientData : ℕ
  prev : Option ℕ
  next : Option ℕ
  deriving DecidableEq

/-- `aeEventLoop`, as far as time events are concerned, with the memory of the nodes.  The
addresses from `fresh` on were never used. -/
structure Timers where
  timeEventNextId : ℤ
  lastTime : ℤ
  timeEventHead : Option ℕ
  mem : ℕ → Option TimeEvent
  fresh : ℕ

/-- The time events of `aeCreateEventLoop`. -/
def Timers.create (lastTime : ℤ) : Timers := ⟨0, lastTime, none, fun _ => none, 0⟩

/-- Write the node at an address. -/
def Timers.modify (s : Timers) (te : ℕ) (f : TimeEvent → TimeEvent) : Option Timers :=
  (s.mem te).map fun x => { s with mem := update s.mem te (some (f x)) }

/-- Write a node if there is one. -/
def Timers.modifyIf (s : Timers) (te : Option ℕ) (f : TimeEvent → TimeEvent) : Option Timers :=
  match te with
  | none => some s
  | some te => s.modify te f

/-- `aeAddMillisecondsToNow` -/
def aeAddMillisecondsToNow (now : Time) (milliseconds : ℤ) : Time :=
  let whenSec := now.sec + milliseconds.tdiv 1000
  let whenMs := now.ms + milliseconds.tmod 1000
  if 1000 ≤ whenMs then ⟨whenSec + 1, whenMs - 1000⟩ else ⟨whenSec, whenMs⟩

def TimeEvent.when (x : TimeEvent) : Time := ⟨x.whenSec, x.whenMs⟩

/-- A time event with another time. -/
def TimeEvent.at (x : TimeEvent) (t : Time) : TimeEvent :=
  { x with whenSec := t.sec, whenMs := t.ms }

/-- `AE_DELETED_EVENT_ID` -/
def deletedEventId : ℤ := -1

/-- `AE_NOMORE` -/
def nomore : ℤ := -1

/-- `aeCreateTimeEvent`, at a time; the id that it returns is `timeEventNextId`. -/
def aeCreateTimeEvent (s : Timers) (now : Time) (milliseconds : ℤ) (proc clientData : ℕ)
    (finalizerProc : Option ℕ) : Option Timers :=
  let te := s.fresh
  let t := aeAddMillisecondsToNow now milliseconds
  let node : TimeEvent :=
    ⟨s.timeEventNextId, t.sec, t.ms, proc, finalizerProc, clientData, none, s.timeEventHead⟩
  let s' : Timers :=
    { s with
      timeEventNextId := s.timeEventNextId + 1
      mem := update s.mem te (some node)
      fresh := te + 1 }
  (s'.modifyIf s.timeEventHead fun x => { x with prev := some te }).map fun s =>
    { s with timeEventHead := some te }

/-- The loop of `aeDeleteTimeEvent`: the first node with an id. -/
def searchId (mem : ℕ → Option TimeEvent) (id : ℤ) : ℕ → Option ℕ → Option (Option ℕ)
  | _, none => some none
  | 0, some _ => none
  | fuel + 1, some te =>
    (mem te).bind fun x => if x.id = id then some (some te) else searchId mem id fuel x.next

/-- `aeDeleteTimeEvent`, and the node that was found. -/
def aeDeleteTimeEvent (s : Timers) (id : ℤ) : Option (Timers × Option ℕ) :=
  (searchId s.mem id s.fresh s.timeEventHead).bind fun te =>
    (s.modifyIf te fun x => { x with id := deletedEventId }).map fun s => (s, te)

/-- The loop of `aeSearchNearestTimer`. -/
def searchNearest (mem : ℕ → Option TimeEvent) :
    ℕ → Option ℕ → Option TimeEvent → Option (Option TimeEvent)
  | _, none, nearest => some nearest
  | 0, some _, _ => none
  | fuel + 1, some te, nearest =>
    (mem te).bind fun x =>
      searchNearest mem fuel x.next <|
        match nearest with
        | none => some x
        | some n =>
          if x.whenSec < n.whenSec ∨ x.whenSec = n.whenSec ∧ x.whenMs < n.whenMs then some x
          else some n

/-- `aeSearchNearestTimer` -/
def aeSearchNearestTimer (s : Timers) : Option (Option TimeEvent) :=
  searchNearest s.mem s.fresh s.timeEventHead none

/-! ### Processing -/

/-- What a callback does to the time events. -/
inductive TimerChange where
  | aeCreateTimeEvent (milliseconds : ℤ) (proc clientData : ℕ) (finalizerProc : Option ℕ)
  | aeDeleteTimeEvent (id : ℤ)
  deriving DecidableEq

/-- The clock and the callbacks, with the rest of the world that they see and change.  A
`timeProc` is called with its id and its data and also returns a number. -/
structure Env (ω : Type) where
  aeGetTime : ω → Time × ω
  timeProc : ω → Timers → ℕ → ℤ → ℕ → List TimerChange × ℤ × ω
  finalizerProc : ω → Timers → ℕ → ℕ → List TimerChange × ω

/-- What an event was registered with. -/
structure Callbacks where
  timeProc : ℕ
  finalizerProc : Option ℕ
  clientData : ℕ
  deriving DecidableEq

def TimeEvent.callbacks (x : TimeEvent) : Callbacks := ⟨x.timeProc, x.finalizerProc, x.clientData⟩

/-- What happens to the time events. -/
inductive TimerEntry where
  /-- `aeCreateTimeEvent`, at a time, with the id it returns -/
  | created (te : ℕ) (id : ℤ) (c : Callbacks) (now : Time) (milliseconds : ℤ)
  /-- `aeDeleteTimeEvent` with an id, and the node it found -/
  | deleted (id : ℤ) (te : Option ℕ)
  /-- The clock was set back. -/
  | skewed
  /-- An event was visited and not due. -/
  | passed (te : ℕ) (now : Time)
  /-- A `timeProc` was called, with the changes it makes and what it returned -/
  | fired (te : ℕ) (id : ℤ) (c : Callbacks) (now : Time) (changes : List TimerChange) (ret : ℤ)
  /-- The time of an event was set after its `timeProc` returned a number of milliseconds. -/
  | rescheduled (te : ℕ) (now : Time) (ret : ℤ)
  /-- The id of an event was reset after its `timeProc` returned `AE_NOMORE`. -/
  | ended (te : ℕ)
  /-- An event was taken out of the list. -/
  | collected (te : ℕ) (c : Callbacks)
  /-- A finalizer was called, with the changes it makes. -/
  | finalized (proc clientData : ℕ) (changes : List TimerChange)
  deriving DecidableEq

/-- The time events with the world and the log. -/
structure Clockwork (ω : Type) where
  timers : Timers
  world : ω
  log : List TimerEntry

section

variable {ω : Type} (env : Env ω)

/-- Something is recorded. -/
def Clockwork.note (p : Clockwork ω) (e : TimerEntry) : Clockwork ω :=
  { p with log := p.log ++ [e] }

/-- Write the node at an address. -/
def Clockwork.modify (p : Clockwork ω) (te : ℕ) (f : TimeEvent → TimeEvent) :
    Option (Clockwork ω) :=
  (p.timers.modify te f).map fun s => { p with timers := s }

def timerChange (p : Clockwork ω) : TimerChange → Option (Clockwork ω)
  | .aeCreateTimeEvent milliseconds proc clientData finalizerProc =>
    let now := env.aeGetTime p.world
    (aeCreateTimeEvent p.timers now.1 milliseconds proc clientData finalizerProc).map fun s =>
      ⟨s, now.2, p.log ++ [.created p.timers.fresh p.timers.timeEventNextId
        ⟨proc, finalizerProc, clientData⟩ now.1 milliseconds]⟩
  | .aeDeleteTimeEvent id =>
    (aeDeleteTimeEvent p.timers id).map fun x => ⟨x.1, p.world, p.log ++ [.deleted id x.2]⟩

/-- The changes that a callback makes. -/
def timerChanges (p : Clockwork ω) (l : List TimerChange) : Option (Clockwork ω) :=
  l.foldlM (timerChange env) p

/-- Take a node out of the list. -/
def unlinkTimer (s : Timers) (x : TimeEvent) : Option Timers :=
  (match x.prev with
    | some prev => s.modify prev fun y => { y with next := x.next }
    | none => some { s with timeEventHead := x.next }).bind fun s =>
  s.modifyIf x.next fun y => { y with prev := x.prev }

/-- The finalizer of an event is called, if it has one. -/
def finalize (p : Clockwork ω) (x : TimeEvent) : Option (Clockwork ω) :=
  match x.finalizerProc with
  | none => some p
  | some proc =>
    let y := env.finalizerProc p.world p.timers proc x.clientData
    timerChanges env ⟨p.timers, y.2, p.log ++ [.finalized proc x.clientData y.1]⟩ y.1

/-- A deleted event is unlinked, finalized and freed. -/
def collect (te : ℕ) (x : TimeEvent) (p : Clockwork ω) : Option (Clockwork ω) :=
  (unlinkTimer p.timers x).bind fun s =>
    (finalize env ⟨s, p.world, p.log ++ [.collected te x.callbacks]⟩ x).map fun p =>
      { p with timers := { p.timers with mem := update p.timers.mem te none } }

/-- The `timeProc` of an event is called, at a time. -/
def fire (te : ℕ) (x : TimeEvent) (now : Time) (p : Clockwork ω) : Option (Clockwork ω) :=
  let y := env.timeProc p.world p.timers x.timeProc x.id x.clientData
  let ret := y.2.1
  let noted : Clockwork ω := ⟨p.timers, y.2.2, p.log ++ [.fired te x.id x.callbacks now y.1 ret]⟩
  (timerChanges env noted y.1).bind fun p =>
    if ret ≠ nomore then
      let now := env.aeGetTime p.world
      (({ p with world := now.2 } : Clockwork ω).modify te fun x =>
        x.at (aeAddMillisecondsToNow now.1 ret)).map fun p => p.note (.rescheduled te now.1 ret)
    else (p.modify te fun x => { x with id := deletedEventId }).map fun p => p.note (.ended te)

/-- Whether an event is due. -/
def TimeEvent.due (x : TimeEvent) (now : Time) : Bool :=
  x.whenSec < now.sec ∨ now.sec = x.whenSec ∧ x.whenMs ≤ now.ms

/-- One turn of the loop of `processTimeEvents`, and the node that comes next. -/
def timerTurn (maxId : ℤ) (te : ℕ) (p : Clockwork ω) : Option (Clockwork ω × Option ℕ) :=
  (p.timers.mem te).bind fun x =>
    if x.id = deletedEventId then (collect env te x p).map fun p => (p, x.next)
    else if maxId < x.id then some (p, x.next)
    else
      let now := env.aeGetTime p.world
      let p : Clockwork ω := { p with world := now.2 }
      (if x.due now.1 then fire env te x now.1 p
        else some (p.note (.passed te now.1))).bind fun p =>
      (p.timers.mem te).map fun x => (p, x.next)

def timerLoop (maxId : ℤ) : ℕ → Option ℕ → Clockwork ω → Option (Clockwork ω)
  | _, none, p => some p
  | 0, some _, _ => none
  | fuel + 1, some te, p => (timerTurn env maxId te p).bind fun x => timerLoop maxId fuel x.2 x.1

/-- The loop that makes all events due when the clock was set back. -/
def skewLoop : ℕ → Option ℕ → Timers → Option Timers
  | _, none, s => some s
  | 0, some _, _ => none
  | fuel + 1, some te, s =>
    (s.modify te fun x => { x with whenSec := 0 }).bind fun s =>
      (s.mem te).bind fun x => skewLoop fuel x.next s

/-- `processTimeEvents`, where `time(NULL)` is `now`. -/
def processTimeEvents (now : ℤ) (p : Clockwork ω) : Option (Clockwork ω) :=
  (if now < p.timers.lastTime then
    (skewLoop p.timers.fresh p.timers.timeEventHead p.timers).map fun s =>
      ({ p with timers := s } : Clockwork ω).note .skewed
  else some p).bind fun p =>
  let s := p.timers
  timerLoop env (s.timeEventNextId - 1) s.fresh s.timeEventHead
    { p with timers := { s with lastTime := now } }

/-- What happens to the time events: calls from outside, and passes. -/
inductive TimerStep where
  | change (c : TimerChange)
  | processTimeEvents (now : ℤ)

def timerStep (p : Clockwork ω) : TimerStep → Option (Clockwork ω)
  | .change c => timerChange env p c
  | .processTimeEvents now => processTimeEvents env now p

/-- The time events after a list of steps. -/
def timerRun (p : Clockwork ω) (steps : List TimerStep) : Option (Clockwork ω) :=
  steps.foldlM (timerStep env) p

end

end Ae
