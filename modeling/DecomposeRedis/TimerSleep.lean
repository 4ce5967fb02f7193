/-
How long the event loop sleeps (ae.c and ae_epoll.c).

Before it polls, `aeProcessEvents` looks for the nearest time event and makes a timeout of
the time that is left.  The computation is in `long`, and what is handed to `epoll_wait`
is an `int`: `epollTimeout` is `none` where a sum, a difference or a product leaves the
64 bits, and the conversion at the end keeps the low 32 bits.

`sleeps_until_earliest_iff` says when the timeout is one that the earliest event allows.
-/
import DecomposeRedis.TimeEventsSpec

namespace Ae

open Function LinkedList

/-! ### The computation -/

/-- Whether a number is a `long`. -/
def IsLong (n : ℤ) : Prop := -2 ^ 63 ≤ n ∧ n < 2 ^ 63

instance (n : ℤ) : Decidable (IsLong n) := inferInstanceAs (Decidable (_ ∧ _))

/-- The result of an operation on `long`; an overflow is `none`. -/
def long (n : ℤ) : Option ℤ := if IsLong n then some n else none

/-- The conversion of a `long` to an `int`. -/
def toInt (n : ℤ) : ℤ := n.bmod (2 ^ 32)

/-- `aeAddMillisecondsToNow` with its overflows. -/
def addMillisecondsToNow (now : Time) (milliseconds : ℤ) : Option Time :=
  (long (now.sec + milliseconds.tdiv 1000)).bind fun whenSec =>
  (long (now.ms + milliseconds.tmod 1000)).bind fun whenMs =>
  if 1000 ≤ whenMs then (long (whenSec + 1)).map fun whenSec => ⟨whenSec, whenMs - 1000⟩
  else some ⟨whenSec, whenMs⟩

/-- The flags of `aeProcessEvents`. -/
structure Flags where
  fileEvents : Bool
  timeEvents : Bool
  dontWait : Bool

/-- `struct timeval` -/
structure Timeval where
  sec : ℤ
  usec : ℤ

/-- The time until an event, or zero. -/
def timevalUntil (shortest : TimeEvent) (now : Time) : Option Timeval :=
  (long (shortest.whenSec - now.sec)).bind fun d =>
  (long (d * 1000)).bind fun d =>
  (long (d + shortest.whenMs)).bind fun d =>
  (long (d - now.ms)).map fun ms =>
    if 0 < ms then ⟨ms.tdiv 1000, ms.tmod 1000 * 1000⟩ else ⟨0, 0⟩

/-- The timeout that `aeApiPoll` of epoll hands to `epoll_wait`. -/
def epollWait : Option Timeval → Option ℤ
  | none => some (-1)
  | some tv =>
    (long (tv.sec * 1000)).bind fun ms => (long (ms + tv.usec.tdiv 1000)).map toInt

/-- The part of `aeProcessEvents` before the events: whether it polls, and with which
timeout. -/
def epollTimeout (s : Timers) (maxfd : ℤ) (flags : Flags) (now : Time) : Option (Option ℤ) :=
  if !flags.timeEvents && !flags.fileEvents then some none
  else if maxfd ≠ -1 ∨ (flags.timeEvents && !flags.dontWait) then
    (if flags.timeEvents && !flags.dontWait then aeSearchNearestTimer s else some none).bind fun
      | some shortest => (timevalUntil shortest now).bind fun tv => (epollWait (some tv)).map some
      | none => (epollWait (if flags.dontWait then some ⟨0, 0⟩ else none)).map some
  else some none

/-- The calls that make a list of time events; each creation has the time of its call. -/
inductive TimerCall where
  | aeCreateTimeEvent (now : Time) (milliseconds : ℤ) (proc clientData : ℕ)
      (finalizerProc : Option ℕ)
  | aeDeleteTimeEvent (id : ℤ)

/-- A call, unless it overflows. -/
def timerCall (s : Timers) : TimerCall → Option Timers
  | .aeCreateTimeEvent now milliseconds proc clientData finalizerProc =>
    (addMillisecondsToNow now milliseconds).bind fun _ =>
      aeCreateTimeEvent s now milliseconds proc clientData finalizerProc
  | .aeDeleteTimeEvent id => (aeDeleteTimeEvent s id).map Prod.fst

def timerCalls (s : Timers) (calls : List TimerCall) : Option Timers := calls.foldlM timerCall s

/-- The nodes from an address on. -/
def listed (mem : ℕ → Option TimeEvent) : ℕ → Option ℕ → List TimeEvent
  | fuel + 1, some te =>
    match mem te with
    | some x => x :: listed mem fuel x.next
    | none => []
  | _, _ => []

/-- The time events of the list. -/
def Timers.events (s : Timers) : List TimeEvent := listed s.mem s.fresh s.timeEventHead

/-! ### Times -/

/-- What `aeGetTime` returns. -/
def Time.Valid (t : Time) : Prop := IsLong t.sec ∧ 0 ≤ t.ms ∧ t.ms < 1000

def Time.millis (t : Time) : ℤ := t.sec * 1000 + t.ms

/-- The clock is valid, and the milliseconds are a `long long` that is not negative. -/
def TimerCall.Valid : TimerCall → Prop
  | .aeCreateTimeEvent now milliseconds _ _ _ =>
    now.Valid ∧ 0 ≤ milliseconds ∧ milliseconds < 2 ^ 63
  | .aeDeleteTimeEvent _ => True

/-- The second of the deadline is a `long`. -/
def TimerCall.Fits : TimerCall → Prop
  | .aeCreateTimeEvent now milliseconds _ _ _ => (now.millis + milliseconds) / 1000 < 2 ^ 63
  | .aeDeleteTimeEvent _ => True

/-- The time until a deadline can be computed, and it is not one of those that are
negative as an `int`. -/
def Time.Reachable (deadline now : Time) : Prop :=
  -2 ^ 63 ≤ (deadline.sec - now.sec) * 1000 ∧
    (deadline.sec - now.sec) * 1000 + deadline.ms < 2 ^ 63 ∧
    -2 ^ 63 ≤ deadline.millis - now.millis ∧
    (0 < deadline.millis - now.millis → (deadline.millis - now.millis) % 2 ^ 32 < 2 ^ 31)

instance (deadline now : Time) : Decidable (deadline.Reachable now) :=
  inferInstanceAs (Decidable (_ ∧ _))

section

variable {now deadline : Time} {milliseconds n m : ℤ} {x : TimeEvent}

theorem long_eq_some : long n = some m ↔ IsLong n ∧ n = m := by
  rw [long]
  split_ifs with h <;> simp [h]

theorem aeAddMillisecondsToNow_valid (hnow : now.Valid) (hms : 0 ≤ milliseconds)
    (hfits : (now.millis + milliseconds) / 1000 < 2 ^ 63) :
    (aeAddMillisecondsToNow now milliseconds).Valid := by
  have hdiv := Int.tdiv_eq_ediv_of_nonneg hms (b := 1000)
  have hmod := Int.tmod_eq_emod_of_nonneg hms (b := 1000)
  simp only [Time.Valid, IsLong, Time.millis] at hnow hfits
  simp only [aeAddMillisecondsToNow, Time.Valid, IsLong, hdiv, hmod]
  split_ifs <;> dsimp only <;> omega

/-- The computation overflows if the second of the deadline is not a `long`. -/
theorem addMillisecondsToNow_eq (hnow : now.Valid) (hms : 0 ≤ milliseconds)
    (hlong : milliseconds < 2 ^ 63) :
    addMillisecondsToNow now milliseconds =
      if (now.millis + milliseconds) / 1000 < 2 ^ 63 then
        some (aeAddMillisecondsToNow now milliseconds) else none := by
  have hdiv := Int.tdiv_eq_ediv_of_nonneg hms (b := 1000)
  have hmod := Int.tmod_eq_emod_of_nonneg hms (b := 1000)
  simp only [Time.Valid, IsLong] at hnow
  have hmillis : now.millis = now.sec * 1000 + now.ms := rfl
  split_ifs with hfits
  · have hsec : long (now.sec + milliseconds / 1000) = some _ :=
      long_eq_some.mpr ⟨by rw [IsLong]; omega, rfl⟩
    have hwhenMs : long (now.ms + milliseconds % 1000) = some _ :=
      long_eq_some.mpr ⟨by rw [IsLong]; omega, rfl⟩
    rw [addMillisecondsToNow, aeAddMillisecondsToNow, hdiv, hmod, hsec, Option.bind_some, hwhenMs,
      Option.bind_some]
    split_ifs with hcarry
    · rw [long_eq_some.mpr ⟨by rw [IsLong]; omega, rfl⟩]
      rfl
    · rfl
  · refine Option.eq_none_iff_forall_ne_some.mpr fun t ht => hfits ?_
    simp only [addMillisecondsToNow, hdiv, hmod, Option.bind_eq_some_iff, long_eq_some, IsLong]
      at ht
    obtain ⟨_, ⟨hsec, rfl⟩, _, ⟨-, rfl⟩, ht⟩ := ht
    split_ifs at ht
    · obtain ⟨_, hcarry, -⟩ := Option.map_eq_some_iff.mp ht
      have hlong := (long_eq_some.mp hcarry).1
      rw [IsLong] at hlong
      omega
    · omega

/-- The difference is in milliseconds, unless it overflows. -/
theorem timevalUntil_eq (hwhen : x.when.Valid) (hnow : now.Valid) :
    timevalUntil x now =
      if -2 ^ 63 ≤ (x.whenSec - now.sec) * 1000 ∧ (x.whenSec - now.sec) * 1000 + x.whenMs < 2 ^ 63 ∧
          -2 ^ 63 ≤ x.when.millis - now.millis then
        some (if 0 < x.when.millis - now.millis then
          ⟨(x.when.millis - now.millis) / 1000, (x.when.millis - now.millis) % 1000 * 1000⟩
            else ⟨0, 0⟩)
      else none := by
  simp only [Time.Valid, TimeEvent.when] at hwhen hnow
  have heq : (x.whenSec - now.sec) * 1000 + x.whenMs - now.ms = x.when.millis - now.millis := by
    simp only [Time.millis, TimeEvent.when]
    omega
  rw [← heq]
  by_cases hfits : -2 ^ 63 ≤ (x.whenSec - now.sec) * 1000 ∧
    (x.whenSec - now.sec) * 1000 + x.whenMs < 2 ^ 63 ∧
      -2 ^ 63 ≤ (x.whenSec - now.sec) * 1000 + x.whenMs - now.ms
  · have h1 : long (x.whenSec - now.sec) = some _ := long_eq_some.mpr ⟨by rw [IsLong]; omega, rfl⟩
    have h2 : long ((x.whenSec - now.sec) * 1000) = some _ :=
      long_eq_some.mpr ⟨by rw [IsLong]; omega, rfl⟩
    have h3 : long ((x.whenSec - now.sec) * 1000 + x.whenMs) = some _ :=
      long_eq_some.mpr ⟨by rw [IsLong]; omega, rfl⟩
    have h4 : long ((x.whenSec - now.sec) * 1000 + x.whenMs - now.ms) = some _ :=
      long_eq_some.mpr ⟨by rw [IsLong]; omega, rfl⟩
    rw [timevalUntil, h1, Option.bind_some, h2, Option.bind_some, h3, Option.bind_some, h4,
      Option.map_some, if_pos hfits]
    congr 1
    split_ifs with hpos
    · rw [Int.tdiv_eq_ediv_of_nonneg hpos.le, Int.tmod_eq_emod_of_nonneg hpos.le]
    · rfl
  · rw [if_neg hfits]
    refine Option.eq_none_iff_forall_ne_some.mpr fun t ht => hfits ?_
    simp only [timevalUntil, Option.bind_eq_some_iff, Option.map_eq_some_iff, long_eq_some, IsLong]
      at ht
    obtain ⟨_, ⟨-, rfl⟩, _, ⟨hmul, rfl⟩, _, ⟨hsum, rfl⟩, _, ⟨hdiff, rfl⟩, -⟩ := ht
    exact ⟨hmul.1, hsum.2, hdiff.1⟩

/-- The timeout is the number of milliseconds, as an `int`. -/
theorem epollWait_until {n : ℤ} (hpos : 0 < n) (hlong : n < 2 ^ 63) :
    epollWait (some ⟨n / 1000, n % 1000 * 1000⟩) = some (toInt n) := by
  have hsec : long (n / 1000 * 1000) = some _ := long_eq_some.mpr ⟨by rw [IsLong]; omega, rfl⟩
  have husec : (n % 1000 * 1000).tdiv 1000 = n % 1000 := Int.mul_tdiv_cancel _ (by decide)
  have hsum : long (n / 1000 * 1000 + n % 1000) = some n := by
    rw [long_eq_some, IsLong]
    omega
  rw [epollWait, hsec, Option.bind_some, husec, hsum]
  rfl

theorem toInt_nonneg_iff {n : ℤ} : 0 ≤ toInt n ↔ n % 2 ^ 32 < 2 ^ 31 := by
  rw [toInt, Int.bmod_def]
  push_cast
  split_ifs with h <;> omega

theorem toInt_le {n : ℤ} (h : 0 ≤ n) : toInt n ≤ n := by
  rw [toInt, Int.bmod_def]
  push_cast
  split_ifs <;> omega

end

/-! ### The nearest event -/

section

variable {s s' : Timers} {l front back : List ℕ} {now : Time}

/-- The nearest event so far. -/
def nearer (nearest : Option TimeEvent) (x : TimeEvent) : Option TimeEvent :=
  match nearest with
  | none => some x
  | some n =>
    if x.whenSec < n.whenSec ∨ x.whenSec = n.whenSec ∧ x.whenMs < n.whenMs then some x else some n

theorem listed_eq (h : s.Wf (front ++ back)) {fuel : ℕ} (hfuel : back.length ≤ fuel) :
    listed s.mem fuel back.head? = back.filterMap s.mem := by
  induction back generalizing front fuel with
  | nil => cases fuel <;> rfl
  | cons te back ih =>
    obtain ⟨fuel, rfl⟩ := Nat.exists_eq_add_one_of_ne_zero (Nat.ne_zero_of_lt hfuel)
    obtain ⟨x, hx, -, hnext⟩ := h.node
    rw [List.append_cons] at h
    have hrest := ih h (Nat.le_of_succ_le_succ hfuel)
    rw [List.head?_cons, listed, List.filterMap_cons, hx, ← hrest, ← hnext]

theorem searchNearest_eq (h : s.Wf (front ++ back)) {fuel : ℕ} (hfuel : back.length ≤ fuel)
    (nearest : Option TimeEvent) :
    searchNearest s.mem fuel back.head? nearest
      = some ((back.filterMap s.mem).foldl nearer nearest) := by
  induction back generalizing front fuel nearest with
  | nil => rw [List.head?_nil, searchNearest]; rfl
  | cons te back ih =>
    obtain ⟨fuel, rfl⟩ := Nat.exists_eq_add_one_of_ne_zero (Nat.ne_zero_of_lt hfuel)
    obtain ⟨x, hx, -, hnext⟩ := h.node
    rw [List.append_cons] at h
    have hrest := ih h (Nat.le_of_succ_le_succ hfuel) (nearer nearest x)
    rw [List.head?_cons, searchNearest, List.filterMap_cons, hx, Option.bind_some, hnext,
      List.foldl_cons]
    exact hrest

theorem Timers.Wf.events_eq (h : s.Wf l) : s.events = l.filterMap s.mem := by
  rw [Timers.events, h.linked.head_eq]
  exact listed_eq (show s.Wf ([] ++ l) from h) (h.linked.length_le h.lt_fresh)

theorem aeSearchNearestTimer_eq (h : s.Wf l) :
    aeSearchNearestTimer s = some (s.events.foldl nearer none) := by
  rw [aeSearchNearestTimer, h.events_eq, h.linked.head_eq]
  exact searchNearest_eq (show s.Wf ([] ++ l) from h) (h.linked.length_le h.lt_fresh) none

/-- The order of times is that of their milliseconds. -/
theorem millis_lt_iff {t t' : Time} (h : t.Valid) (h' : t'.Valid) :
    t.sec < t'.sec ∨ t.sec = t'.sec ∧ t.ms < t'.ms ↔ t.millis < t'.millis := by
  simp only [Time.Valid, Time.millis] at *
  omega

theorem eq_of_millis_eq {t t' : Time} (h : t.Valid) (h' : t'.Valid) (heq : t.millis = t'.millis) :
    t = t' := by
  obtain ⟨sec, ms⟩ := t
  obtain ⟨sec', ms'⟩ := t'
  simp only [Time.Valid, Time.millis, Time.mk.injEq] at *
  omega

/-- The fold picks one of the events, and none is before it. -/
theorem foldl_nearer_some {xs : List TimeEvent} {n : TimeEvent} (hn : n.when.Valid)
    (hxs : ∀ x ∈ xs, x.when.Valid) :
    ∃ r, xs.foldl nearer (some n) = some r ∧ r ∈ n :: xs ∧ ∀ x ∈ n :: xs,
      r.when.millis ≤ x.when.millis := by
  induction xs generalizing n with
  | nil => exact ⟨n, rfl, by simp, by simp⟩
  | cons x xs ih =>
    have hx : x.when.Valid := hxs x List.mem_cons_self
    have hiff : x.whenSec < n.whenSec ∨ x.whenSec = n.whenSec ∧ x.whenMs < n.whenMs ↔
        x.when.millis < n.when.millis := millis_lt_iff hx hn
    have hrest := fun y hy => hxs y (List.mem_cons_of_mem x hy)
    rw [List.foldl_cons, nearer]
    by_cases hlt : x.when.millis < n.when.millis
    · obtain ⟨r, hr, hmem, hle⟩ := ih hx hrest
      refine ⟨r, by rw [if_pos (hiff.mpr hlt), hr], List.mem_cons_of_mem n hmem,
        List.forall_mem_cons.mpr ⟨?_, hle⟩⟩
      exact (hle x List.mem_cons_self).trans hlt.le
    · obtain ⟨r, hr, hmem, hle⟩ := ih hn hrest
      refine ⟨r, by rw [if_neg (hiff.not.mpr hlt), hr], ?_, fun y hy => ?_⟩
      · rcases List.mem_cons.mp hmem with rfl | hmem <;> simp [*]
      · rcases List.mem_cons.mp hy with rfl | hy
        · exact hle y List.mem_cons_self
        · rcases List.mem_cons.mp hy with rfl | hy
          · exact (hle n List.mem_cons_self).trans (not_lt.mp hlt)
          · exact hle y (List.mem_cons_of_mem n hy)

theorem foldl_nearer {xs : List TimeEvent} (hne : xs ≠ []) (hxs : ∀ x ∈ xs, x.when.Valid) :
    ∃ r, xs.foldl nearer none = some r ∧ r ∈ xs ∧ ∀ x ∈ xs, r.when.millis ≤ x.when.millis := by
  rcases xs with _ | ⟨x, xs⟩
  · exact absurd rfl hne
  · exact foldl_nearer_some (hxs x List.mem_cons_self) fun y hy => hxs y (List.mem_cons_of_mem x hy)

/-! ### Lists of events -/

/-- The times in memory are valid. -/
def Timers.Timed (s : Timers) : Prop := ∀ a x, s.mem a = some x → x.when.Valid

/-- A write that does not change times. -/
theorem Timers.Timed.modifyIf (h : s.Timed) {te : Option ℕ} {f : TimeEvent → TimeEvent}
    (hf : ∀ x, (f x).when = x.when) (hs' : s.modifyIf te f = some s') : s'.Timed := by
  rcases te with _ | te
  · obtain rfl : s = s' := Option.some.inj hs'
    exact h
  · obtain ⟨x, hx, rfl⟩ := Option.map_eq_some_iff.mp hs'
    intro a y hy
    by_cases ha : a = te
    · subst ha
      obtain rfl : f x = y := by simpa using hy
      rw [hf]
      exact h a x hx
    · exact h a y (by simpa [ha] using hy)

theorem Timers.Timed.create {t : ℤ} : (Timers.create t).Timed := nofun

theorem Timers.Timed.events (h : s.Timed) (hwf : s.Wf l) : ∀ x ∈ s.events, x.when.Valid := by
  intro x hx
  rw [hwf.events_eq] at hx
  obtain ⟨a, -, ha⟩ := List.mem_filterMap.mp hx
  exact h a x ha

/-- A call does what it does without the bounds, if its deadline fits. -/
theorem timerCall_spec (hwf : s.Wf l) (htimed : s.Timed) {c : TimerCall} (hc : c.Valid) :
    (c.Fits → ∃ s' l', timerCall s c = some s' ∧ s'.Wf l' ∧ s'.Timed) ∧
      (¬c.Fits → timerCall s c = none) := by
  rcases c with ⟨now, milliseconds, proc, clientData, finalizerProc⟩ | id
  · obtain ⟨hnow, hms, hlong⟩ := hc
    have heq := addMillisecondsToNow_eq hnow hms hlong
    constructor
    · intro hfits
      rw [if_pos (show (now.millis + milliseconds) / 1000 < 2 ^ 63 from hfits)] at heq
      obtain ⟨s', -, hs', hwf', -⟩ := aeCreateTimeEvent_spec hwf now milliseconds proc clientData
        finalizerProc
      refine ⟨s', _, by rw [timerCall, heq]; exact hs', hwf', ?_⟩
      obtain ⟨s'', hs'', rfl⟩ := Option.map_eq_some_iff.mp hs'
      -- the node is written first, then the one that was at the head
      have htimed'' : s''.Timed :=
        Timers.Timed.modifyIf (f := fun x => { x with prev := some s.fresh }) ?_ (fun _ => rfl) hs''
      · exact htimed''
      intro a x hx
      by_cases ha : a = s.fresh
      · subst ha
        dsimp only at hx
        rw [update_self] at hx
        obtain rfl := Option.some.inj hx
        exact aeAddMillisecondsToNow_valid hnow hms hfits
      · exact htimed a x (by simpa [ha] using hx)
    · intro hfits
      rw [if_neg (show ¬(now.millis + milliseconds) / 1000 < 2 ^ 63 from hfits)] at heq
      rw [timerCall, heq]
      rfl
  · refine ⟨fun _ => ?_, fun hfits => absurd trivial hfits⟩
    obtain ⟨s', te, hs', hwf', -⟩ := aeDeleteTimeEvent_spec hwf id
    refine ⟨s', l, by rw [timerCall, hs']; rfl, hwf', ?_⟩
    obtain ⟨te', -, hmap⟩ := Option.bind_eq_some_iff.mp hs'
    obtain ⟨s'', hs'', heq⟩ := Option.map_eq_some_iff.mp hmap
    obtain rfl : s'' = s' := congrArg Prod.fst heq
    exact htimed.modifyIf (f := fun x => { x with id := deletedEventId }) (fun _ => rfl) hs''

theorem timerCalls_spec (hwf : s.Wf l) (htimed : s.Timed) {calls : List TimerCall}
    (hcalls : ∀ c ∈ calls, c.Valid) :
    ((∀ c ∈ calls, c.Fits) → ∃ s' l', timerCalls s calls = some s' ∧ s'.Wf l' ∧ s'.Timed) ∧
      (¬(∀ c ∈ calls, c.Fits) → timerCalls s calls = none) := by
  induction calls generalizing s l with
  | nil => exact ⟨fun _ => ⟨s, l, rfl, hwf, htimed⟩, fun h => absurd (by simp) h⟩
  | cons c calls ih =>
    obtain ⟨hsome, hnone⟩ := timerCall_spec hwf htimed (hcalls c List.mem_cons_self)
    by_cases hc : c.Fits
    · obtain ⟨s', l', hs', hwf', htimed'⟩ := hsome hc
      have hrest := ih hwf' htimed' fun c' hc' => hcalls c' (List.mem_cons_of_mem c hc')
      have heq : timerCalls s (c :: calls) = timerCalls s' calls := by
        rw [timerCalls, List.foldlM_cons, hs']
        rfl
      rw [heq]
      simpa [hc] using hrest
    · refine ⟨fun h => absurd (h c List.mem_cons_self) hc, fun _ => ?_⟩
      rw [timerCalls, List.foldlM_cons, hnone hc]
      rfl

/-! ### The timeout -/

/-- The loop polls with a timeout that is not negative and is at most the time until each
live event. -/
def SleepsUntil (events : List TimeEvent) (now : Time) (timeout : Option (Option ℤ)) : Prop :=
  ∃ t, timeout = some (some t) ∧ 0 ≤ t ∧
    ∀ x ∈ events, x.id ≠ deletedEventId → t ≤ max 0 (x.when.millis - now.millis)

theorem epollTimeout_eq (hwf : s.Wf l) {flags : Flags} (htime : flags.timeEvents)
    (hwait : ¬flags.dontWait) {maxfd : ℤ} {x : TimeEvent}
    (hx : s.events.foldl nearer none = some x) :
    epollTimeout s maxfd flags now = (timevalUntil x now).bind fun tv =>
      (epollWait (some tv)).map some := by
  simp [epollTimeout, htime, hwait, aeSearchNearestTimer_eq hwf, hx]

/-- The timeout is good if the time until the earliest event can be told in an `int`. -/
theorem epollTimeout_iff (hwf : s.Wf l) (htimed : s.Timed) (hnow : now.Valid) {flags : Flags}
    (htime : flags.timeEvents) (hwait : ¬flags.dontWait) (maxfd : ℤ)
    (hlive : ∃ x ∈ s.events, x.id ≠ deletedEventId) :
    SleepsUntil s.events now (epollTimeout s maxfd flags now) ↔
      ∀ x ∈ s.events, (∀ y ∈ s.events, x.when.millis ≤ y.when.millis) → x.when.Reachable now := by
  have hvalid := htimed.events hwf
  have hne : s.events ≠ [] := by
    obtain ⟨x, hx, -⟩ := hlive
    exact List.ne_nil_of_mem hx
  obtain ⟨r, hr, hmem, hmin⟩ := foldl_nearer hne hvalid
  -- there is only one earliest time
  have hone : (∀ x ∈ s.events, (∀ y ∈ s.events, x.when.millis ≤ y.when.millis) →
      x.when.Reachable now) ↔ r.when.Reachable now := by
    constructor
    · intro h
      exact h r hmem hmin
    · intro h x hx hmin'
      have heq := eq_of_millis_eq (hvalid x hx) (hvalid r hmem)
        (le_antisymm (hmin' r hmem) (hmin x hx))
      rwa [heq]
  rw [hone, epollTimeout_eq hwf htime hwait hr, timevalUntil_eq (hvalid r hmem) hnow]
  have hpos_iff := @toInt_nonneg_iff (r.when.millis - now.millis)
  split_ifs with hfits hpos
  · -- the time that is left
    have hms := hnow.2.1
    have hlong : r.when.millis - now.millis < 2 ^ 63 := by
      simp only [Time.millis, TimeEvent.when] at hfits ⊢
      omega
    rw [Option.bind_some, epollWait_until hpos hlong]
    constructor
    · rintro ⟨t, ht, hnonneg, -⟩
      obtain rfl : toInt _ = t := by simpa using ht
      exact ⟨hfits.1, hfits.2.1, hfits.2.2, fun _ => hpos_iff.mp hnonneg⟩
    · rintro ⟨-, -, -, hint⟩
      refine ⟨_, rfl, hpos_iff.mpr (hint hpos), fun x hx _ => ?_⟩
      have hle := toInt_le hpos.le
      have hx := hmin x hx
      omega
  · -- an event is due
    have hzero : epollWait (some ⟨0, 0⟩) = some 0 := by decide
    rw [Option.bind_some, hzero]
    constructor
    · intro _
      exact ⟨hfits.1, hfits.2.1, hfits.2.2, fun h => absurd h hpos⟩
    · intro _
      exact ⟨0, rfl, le_rfl, fun x _ _ => le_max_left _ _⟩
  · constructor
    · rintro ⟨t, ht, -⟩
      cases ht
    · rintro ⟨h1, h2, h3, -⟩
      exact absurd ⟨h1, h2, h3⟩ hfits

end

/-- The loop never sleeps past a live event, whatever events were created and deleted, if
no deadline is beyond what a `long` can tell in seconds and the time until the earliest
event, one that was deleted included, is not one that overflows or that is negative as an
`int`. -/
theorem sleeps_until_earliest_iff {calls : List TimerCall} (hcalls : ∀ c ∈ calls, c.Valid)
    {now : Time} (hnow : now.Valid) {flags : Flags} (htime : flags.timeEvents)
    (hwait : ¬flags.dontWait) (maxfd lastTime : ℤ) :
    (∃ s, timerCalls (Timers.create lastTime) calls = some s ∧
      ((∃ x ∈ s.events, x.id ≠ deletedEventId) →
        SleepsUntil s.events now (epollTimeout s maxfd flags now))) ↔
    (∀ c ∈ calls, c.Fits) ∧
      ∀ s, timerCalls (Timers.create lastTime) calls = some s →
      (∃ x ∈ s.events, x.id ≠ deletedEventId) →
        ∀ x ∈ s.events, (∀ y ∈ s.events, x.when.millis ≤ y.when.millis) → x.when.Reachable now := by
  obtain ⟨hsome, hnone⟩ := timerCalls_spec (.create lastTime) .create hcalls
  by_cases hfits : ∀ c ∈ calls, c.Fits
  · obtain ⟨s, l, hs, hwf, htimed⟩ := hsome hfits
    have hiff := fun hlive => epollTimeout_iff hwf htimed hnow htime hwait maxfd hlive
    constructor
    · rintro ⟨s', hs', hsleeps⟩
      obtain rfl : s = s' := Option.some.inj (hs.symm.trans hs')
      refine ⟨hfits, fun s' hs' hlive => ?_⟩
      obtain rfl : s = s' := Option.some.inj (hs.symm.trans hs')
      exact (hiff hlive).mp (hsleeps hlive)
    · rintro ⟨-, hreachable⟩
      exact ⟨s, hs, fun hlive => (hiff hlive).mpr (hreachable s hs hlive)⟩
  · constructor
    · rintro ⟨s, hs, -⟩
      cases (hnone hfits).symm.trans hs
    · intro h
      exact absurd h.1 hfits

/-- Events in a day, in an hour and in a minute, where the last one is deleted. -/
def dayCalls : List TimerCall :=
  [.aeCreateTimeEvent ⟨1000, 0⟩ 86400000 0 0 none,
    .aeCreateTimeEvent ⟨1000, 500⟩ 3600000 1 0 (some 7),
    .aeCreateTimeEvent ⟨1001, 0⟩ 60000 2 0 none, .aeDeleteTimeEvent 2]

theorem sleeps_until_earliest_iff_day :
    ∃ s, timerCalls (Timers.create 0) dayCalls = some s ∧
      s.events.map TimeEvent.id = [deletedEventId, 1, 0] ∧
      SleepsUntil s.events ⟨1002, 0⟩ (epollTimeout s (-1) ⟨true, true, false⟩ ⟨1002, 0⟩) := by
  have hcalls : ∀ c ∈ dayCalls, c.Valid := by simp [dayCalls, TimerCall.Valid, Time.Valid, IsLong]
  have hfits : ∀ c ∈ dayCalls, c.Fits := by simp [dayCalls, TimerCall.Fits, Time.millis]
  obtain ⟨s, hs, hsleeps⟩ := (@sleeps_until_earliest_iff dayCalls hcalls ⟨1002, 0⟩
    (by simp [Time.Valid, IsLong]) ⟨true, true, false⟩ rfl (by decide) (-1) 0).mpr ⟨hfits, by
      intro s hs _ x hx _
      obtain rfl := Option.some.inj hs
      revert x
      decide⟩
  have hids : s.events.map TimeEvent.id = [deletedEventId, 1, 0] := by
    obtain rfl := Option.some.inj hs
    decide
  refine ⟨s, hs, hids, hsleeps ?_⟩
  have hmem : (1 : ℤ) ∈ s.events.map TimeEvent.id := by simp [hids]
  obtain ⟨x, hx, hid⟩ := List.mem_map.mp hmem
  exact ⟨x, hx, by rw [hid]; decide⟩

/-- An event in 2 ^ 31 milliseconds makes `epoll_wait` wait for ever. -/
theorem sleeps_past_timer :
    ∃ s x, timerCalls (Timers.create 0) [.aeCreateTimeEvent ⟨0, 0⟩ (2 ^ 31) 0 0 none] = some s ∧
      s.events = [x] ∧
      x.id ≠ deletedEventId ∧ epollTimeout s (-1) ⟨true, true, false⟩ ⟨0, 0⟩
        = some (some (-2147483648)) := by
  refine ⟨_, _, rfl, rfl, ?_, ?_⟩
  · decide
  · decide +kernel

end Ae
