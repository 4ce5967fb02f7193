/-
The file events of the event loop (ae.c).

The table `events` says which events of a descriptor are of interest, and the
multiplexing API is told the same by `aeApiAddEvent` and `aeApiDelEvent`.  There are
several of these APIs and the functions of ae.c work with any of them, so they are
written here over a record `Api`; the ones for epoll (ae_epoll.c) and select
(ae_select.c) are below, with the part of the kernel that they talk to.

A call of an `Api` is `none` where the behaviour of the code ends: it aborts, or it
writes outside of a buffer.
-/
import Mathlib.Algebra.Order.Ring.Int
import Mathlib.Logic.Function.Basic

namespace Ae

open Function

/-- `AE_READABLE`, `AE_WRITABLE` and `AE_BARRIER` -/
structure Mask where
  readable : Bool
  writable : Bool
  barrier : Bool
  deriving DecidableEq

namespace Mask

/-- `AE_NONE` -/
def none : Mask := ⟨false, false, false⟩

/-- `m | m'` -/
def or (m m' : Mask) : Mask :=
  ⟨m.readable || m'.readable, m.writable || m'.writable, m.barrier || m'.barrier⟩

/-- `m & ~m'` -/
def diff (m m' : Mask) : Mask :=
  ⟨m.readable && !m'.readable, m.writable && !m'.writable, m.barrier && !m'.barrier⟩

end Mask

/-- `aeFileEvent`; a handler is named by its address. -/
structure FileEvent where
  mask : Mask
  rfileProc : ℕ
  wfileProc : ℕ
  clientData : ℕ

/-- What ae.c calls of a multiplexing API, with `κ` for its `apidata`.  The functions
look at the masks of the table.  `aeApiAddEvent` also gets whether the system call fails,
and says whether it has returned 0; `aeApiResize` is `none` if it returns -1. -/
structure Api (κ : Type) where
  aeApiAddEvent : κ → (ℕ → Mask) → ℕ → Mask → Bool → Option (κ × Bool)
  aeApiDelEvent : κ → (ℕ → Mask) → ℕ → Mask → Option κ
  aeApiResize : κ → ℕ → Option κ

/-- `aeEventLoop`, as far as file events are concerned. -/
structure EventLoop (κ : Type) where
  maxfd : ℤ
  setsize : ℕ
  events : ℕ → FileEvent
  apidata : κ

/-- The events of interest of a descriptor. -/
def EventLoop.mask {κ : Type} (l : EventLoop κ) (fd : ℕ) : Mask := (l.events fd).mask

/-- `aeCreateEventLoop`, with the state that `aeApiCreate` makes. -/
def aeCreateEventLoop {κ : Type} (setsize : ℕ) (apidata : κ) : EventLoop κ :=
  ⟨-1, setsize, fun _ => ⟨.none, 0, 0, 0⟩, apidata⟩

section

variable {κ : Type} (api : Api κ) (l : EventLoop κ)

/-- The loops `for (i = maxfd+1; i < setsize; i++)` over new slots. -/
def clearSlots (events : ℕ → FileEvent) (maxfd : ℤ) (setsize : ℕ) (i : ℕ) : FileEvent :=
  if maxfd < i ∧ i < setsize then { events i with mask := .none } else events i

/-- `aeResizeSetSize`, and whether it returns `AE_OK`. -/
def aeResizeSetSize (setsize : ℤ) : EventLoop κ × Bool :=
  if setsize = l.setsize then (l, true)
  else if setsize ≤ l.maxfd then (l, false)
  else
    match api.aeApiResize l.apidata setsize.toNat with
    | none => (l, false)
    | some apidata =>
      ({ maxfd := l.maxfd
         setsize := setsize.toNat
         events := clearSlots l.events l.maxfd setsize.toNat
         apidata := apidata }, true)

/-- What `aeCreateFileEvent` writes into the table. -/
def FileEvent.add (fe : FileEvent) (mask : Mask) (proc clientData : ℕ) : FileEvent where
  mask := fe.mask.or mask
  rfileProc := if mask.readable then proc else fe.rfileProc
  wfileProc := if mask.writable then proc else fe.wfileProc
  clientData := clientData

/-- `aeCreateFileEvent`, and whether it returns `AE_OK`. -/
def aeCreateFileEvent (fd : ℕ) (mask : Mask) (proc clientData : ℕ) (fails : Bool) :
    Option (EventLoop κ × Bool) :=
  if l.setsize ≤ fd then some (l, false)
  else
    (api.aeApiAddEvent l.apidata l.mask fd mask fails).map fun x =>
      if x.2 then
        ({ l with
          maxfd := max l.maxfd fd
          events := update l.events fd ((l.events fd).add mask proc clientData)
          apidata := x.1 }, true)
      else ({ l with apidata := x.1 }, false)

/-- The loop `for (j = maxfd-1; j >= 0; j--)`, from the descriptor below `j`. -/
def scanDown (events : ℕ → FileEvent) : ℕ → ℤ
  | 0 => -1
  | j + 1 => if (events j).mask ≠ .none then j else scanDown events j

/-- With `AE_WRITABLE`, `aeDeleteFileEvent` removes `AE_BARRIER` too. -/
def Mask.withBarrier (mask : Mask) : Mask := { mask with barrier := mask.barrier || mask.writable }

/-- `aeDeleteFileEvent`.  The API is called before the table is written. -/
def aeDeleteFileEvent (fd : ℕ) (mask : Mask) : Option (EventLoop κ) :=
  if l.setsize ≤ fd then some l
  else if l.mask fd = .none then some l
  else
    (api.aeApiDelEvent l.apidata l.mask fd mask.withBarrier).map fun apidata =>
      let left := (l.mask fd).diff mask.withBarrier
      let events := update l.events fd { l.events fd with mask := left }
      { l with
        maxfd := if (fd : ℤ) = l.maxfd ∧ left = .none then scanDown events fd else l.maxfd
        events := events
        apidata := apidata }

end

/-! ### epoll -/

namespace Epoll

/-- The events of an `epoll_event`: `EPOLLIN` and `EPOLLOUT`. -/
structure Interest where
  epollin : Bool
  epollout : Bool
  deriving DecidableEq

inductive Op where
  | add
  | mod
  | del
  deriving DecidableEq

/-- What the kernel knows of the descriptors, if they are registered. -/
abbrev Kernel := ℕ → Option Interest

/-- `epoll_ctl`; `none` is -1, with `EEXIST` or `ENOENT`. -/
def epollCtl (k : Kernel) (op : Op) (fd : ℕ) (ee : Interest) : Option Kernel :=
  match op, k fd with
  | .add, none => some (update k fd (some ee))
  | .mod, some _ => some (update k fd (some ee))
  | .del, some _ => some (update k fd none)
  | _, _ => none

/-- The events for a mask. -/
def interest (mask : Mask) : Interest := ⟨mask.readable, mask.writable⟩

/-- `aeApiAddEvent`; `fails` is for a failure of `epoll_ctl` that does not come from what
is registered. -/
def aeApiAddEvent (k : Kernel) (masks : ℕ → Mask) (fd : ℕ) (mask : Mask) (fails : Bool) :
    Option (Kernel × Bool) :=
  let op := if masks fd = .none then Op.add else Op.mod
  if fails then some (k, false)
  else
    match epollCtl k op fd (interest (mask.or (masks fd))) with
    | none => some (k, false)
    | some k => some (k, true)

/-- `aeApiDelEvent`; the result of `epoll_ctl` is not looked at. -/
def aeApiDelEvent (k : Kernel) (masks : ℕ → Mask) (fd : ℕ) (delmask : Mask) : Option Kernel :=
  let mask := (masks fd).diff delmask
  some ((epollCtl k (if mask ≠ .none then .mod else .del) fd (interest mask)).getD k)

/-- ae_epoll.c -/
def api : Api Kernel where
  aeApiAddEvent := aeApiAddEvent
  aeApiDelEvent := aeApiDelEvent
  aeApiResize := fun k _ => some k

/-- `aeApiCreate` -/
def aeApiCreate : Kernel := fun _ => none

end Epoll

/-! ### select -/

namespace Select

/-- `rfds` and `wfds` -/
structure State where
  rfds : ℕ → Bool
  wfds : ℕ → Bool

variable (fdSetsize : ℕ)

/-- `FD_SET` and `FD_CLR`, which write outside of the set for a descriptor that is too
large; done only if `b`. -/
def fdWrite (fds : ℕ → Bool) (fd : ℕ) (b value : Bool) : Option (ℕ → Bool) :=
  if b then if fd < fdSetsize then some (update fds fd value) else none else some fds

/-- `aeApiAddEvent` with `value`, and `aeApiDelEvent` without. -/
def write (value : Bool) (s : State) (fd : ℕ) (mask : Mask) : Option State :=
  (fdWrite fdSetsize s.rfds fd mask.readable value).bind fun rfds =>
    (fdWrite fdSetsize s.wfds fd mask.writable value).map fun wfds => ⟨rfds, wfds⟩

def aeApiAddEvent (s : State) (_masks : ℕ → Mask) (fd : ℕ) (mask : Mask) (_fails : Bool) :
    Option (State × Bool) :=
  (write fdSetsize true s fd mask).map fun s => (s, true)

def aeApiDelEvent (s : State) (_masks : ℕ → Mask) (fd : ℕ) (mask : Mask) : Option State :=
  write fdSetsize false s fd mask

/-- ae_select.c -/
def api : Api State where
  aeApiAddEvent := aeApiAddEvent fdSetsize
  aeApiDelEvent := aeApiDelEvent fdSetsize
  aeApiResize := fun s setsize => if fdSetsize ≤ setsize then none else some s

/-- `aeApiCreate`, which does not look at the set size. -/
def aeApiCreate : State := ⟨fun _ => false, fun _ => false⟩

end Select

end Ae
