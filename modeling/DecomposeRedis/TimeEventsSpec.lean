/-
Time events fire and die as registered.

The log tells what each event is (`told`): its id, its time and its callbacks.  It is a
`Story` if each entry is `Legal` after those before it: an event is created once, with an id
of its own; what is deleted is the event with the id that was given; an event that is not
deleted is fired if it is due by the time that was told, and passed over if not; one that is
deleted is collected.  A pass is one `Turn` for each event of the list (`ProcessesAll`): an
event is collected and then finalized, or passed over, or fired and then given another time
or, after `AE_NOMORE`, deleted.  A `Chronicle` is a log of calls and of such passes, as they
were asked for.

`Recorded` relates the list in memory to the log.  Every call keeps this
(`timerChange_grows`), and so does every turn of `processTimeEvents` (`timerTurn_spec`), where
the part of the list that is still to be visited stays the same.  That the log has the calls
that were really made, and the times that were really read, is seen in a world that keeps a
record of them (`Env.spied`).
-/
import DecomposeRedis.LinkedList
import DecomposeRedis.TimeEvents

namespace Ae

open Function LinkedList

/-! ### The log -/

/-- What an event is, apart from its place in the list. -/
structure Core where
  id : ℤ
  when : Time
  callbacks : Callbacks

def TimeEvent.core (x : TimeEvent) : Core := ⟨x.id, x.when, x.callbacks⟩

def Core.deleted (c : Core) : Core := { c with id := deletedEventId }

def Core.skewed (c : Core) : Core := { c with when := ⟨0, c.when.ms⟩ }

/-- What an entry tells of the event at `a`. -/
def TimerEntry.tell (a : ℕ) (core : Option Core) : TimerEntry → Option Core
  | .created te id c now milliseconds =>
    if te = a then some ⟨id, aeAddMillisecondsToNow now milliseconds, c⟩ else core
  | .deleted _ te => if te = some a then core.map Core.deleted else core
  | .skewed => core.map Core.skewed
  | .rescheduled te now ret =>
    if te = a then core.map fun c => { c with when := aeAddMillisecondsToNow now ret } else core
  | .ended te => if te = a then core.map Core.deleted else core
  | .collected te _ => if te = a then none else core
  | .passed .. | .fired .. | .finalized .. => core

/-- The event at an address as the log tells it. -/
def told (log : List TimerEntry) (a : ℕ) : Option Core := log.foldl (TimerEntry.tell a) none

/-- The time `t` has come. -/
def Due (t now : Time) : Prop := t.sec < now.sec ∨ t.sec = now.sec ∧ t.ms ≤ now.ms

/-- What may be recorded after a log. -/
def Legal (log : List TimerEntry) : TimerEntry → Prop
  | .created te id _ _ _ =>
    (∀ id c now ms, .created te id c now ms ∉ log) ∧ (∀ a c now ms, .created a id c now ms ∉ log) ∧
      id ≠ deletedEventId
  | .deleted id none => ∀ a c, told log a = some c → c.id ≠ id
  | .deleted id (some te) => ∃ c, told log te = some c ∧ c.id = id
  | .passed te now => ∃ c, told log te = some c ∧ c.id ≠ deletedEventId ∧ ¬ Due c.when now
  | .fired te id c now _ _ =>
    ∃ t, told log te = some ⟨id, t, c⟩ ∧ id ≠ deletedEventId ∧ Due t now
  | .rescheduled te _ _ | .ended te => told log te ≠ none
  | .collected te c => ∃ t, told log te = some ⟨deletedEventId, t, c⟩
  | .skewed | .finalized .. => True

/-- Each entry of a log is legal after those before it. -/
def Story (log : List TimerEntry) : Prop :=
  ∀ before e after, log = before ++ e :: after → Legal before e

theorem story_nil : Story [] := by
  intro before e after h
  simp at h

variable {log : List TimerEntry} {e : TimerEntry} {te : ℕ}

theorem Story.snoc (h : Story log) (he : Legal log e) : Story (log ++ [e]) := by
  intro before e' after hsplit
  rcases after.eq_nil_or_concat with rfl | ⟨after, last, rfl⟩
  · obtain ⟨rfl, heq⟩ := List.append_inj' hsplit rfl
    obtain rfl : e = e' := by simpa using heq
    exact he
  · rw [List.concat_eq_append, ← List.cons_append, ← List.append_assoc] at hsplit
    exact h before e' after (List.append_inj_left' hsplit rfl)

theorem Story.of_append {after : List TimerEntry} (h : Story (log ++ after)) : Story log := by
  rintro before e rest rfl
  exact h before e (rest ++ after) (by simp)

theorem told_snoc (a : ℕ) : told (log ++ [e]) a = e.tell a (told log a) := by
  rw [told, told, List.foldl_append]
  rfl

/-- The entry is about the creation of an event. -/
def TimerEntry.Creates (e : TimerEntry) (te : ℕ) : Prop :=
  ∃ id c now ms, e = .created te id c now ms

/-- Only the entry of its creation tells of an event that was not told of. -/
theorem TimerEntry.tell_none (h : ¬ e.Creates te) : e.tell te none = none := by
  cases e with
  | created a id c now ms =>
    rw [TimerEntry.tell, if_neg]
    rintro rfl
    exact h ⟨id, c, now, ms, rfl⟩
  | _ => simp [TimerEntry.tell]

theorem creates_of_told {c : Core} (h : told log te = some c) : ∃ e ∈ log, e.Creates te := by
  induction log using List.reverseRecOn generalizing c with
  | nil => cases h
  | append_singleton log e ih =>
    rw [told_snoc] at h
    rcases hlog : told log te with _ | c'
    · refine ⟨e, by simp, by_contra fun hnot => ?_⟩
      rw [hlog, TimerEntry.tell_none hnot] at h
      cases h
    · obtain ⟨e', he', hcreates⟩ := ih hlog
      exact ⟨e', List.mem_append_left _ he', hcreates⟩

/-- An event is not created again. -/
theorem Legal.not_creates (h : Legal log e) (hcreated : ∃ e ∈ log, e.Creates te) :
    ¬ e.Creates te := by
  rintro ⟨id, c, now, ms, rfl⟩
  obtain ⟨_, hmem, id', c', now', ms', rfl⟩ := hcreated
  exact h.1 id' c' now' ms' hmem

/-! ### The end of an event -/

/-- The entry says that an event is deleted. -/
def TimerEntry.Kills (e : TimerEntry) (te : ℕ) : Prop :=
  e = .ended te ∨ ∃ id, e = .deleted id (some te)

/-- The event was created, and if it is still told of it is deleted. -/
structure Dead (log : List TimerEntry) (te : ℕ) : Prop where
  created : ∃ e ∈ log, e.Creates te
  deleted : ∀ c, told log te = some c → c.id = deletedEventId

theorem dead_of_kills (h : Legal log e) (hkills : e.Kills te) : Dead (log ++ [e]) te := by
  -- in both cases the event is told of before, and deleted then
  have hboth : told log te ≠ none ∧ e.tell te (told log te) = (told log te).map Core.deleted := by
    rcases hkills with rfl | ⟨id, rfl⟩
    · exact ⟨h, if_pos rfl⟩
    · obtain ⟨c, hc, -⟩ := h
      exact ⟨by simp [hc], if_pos rfl⟩
  obtain ⟨c, hc⟩ := Option.ne_none_iff_exists'.mp hboth.1
  obtain ⟨e', he', hcreates⟩ := creates_of_told hc
  refine ⟨⟨e', List.mem_append_left _ he', hcreates⟩, fun c' hc' => ?_⟩
  rw [told_snoc, hboth.2, hc] at hc'
  exact Option.some.inj hc' ▸ rfl

/-- No entry but that of its creation gives an event another id than that of deleted events. -/
theorem TimerEntry.tell_id {core : Option Core} {c : Core} (hnot : ¬ e.Creates te)
    (h : e.tell te core = some c) : c.id = deletedEventId ∨ ∃ d, core = some d ∧ c.id = d.id := by
  rcases core with _ | d
  · rw [TimerEntry.tell_none hnot] at h
    cases h
  · have hsame : some d = some c → c.id = deletedEventId ∨ ∃ d', some d = some d' ∧ c.id = d'.id :=
      fun hc => .inr ⟨d, rfl, congrArg Core.id (Option.some.inj hc).symm⟩
    cases e with
    | created a id cb now ms =>
      rw [TimerEntry.tell, if_neg] at h
      · exact hsame h
      · rintro rfl
        exact hnot ⟨id, cb, now, ms, rfl⟩
    | deleted _ _ | ended _ =>
      rw [TimerEntry.tell] at h
      split_ifs at h
      · exact .inl (Option.some.inj h ▸ rfl)
      · exact hsame h
    | rescheduled _ _ _ =>
      rw [TimerEntry.tell] at h
      split_ifs at h
      · exact .inr ⟨d, rfl, Option.some.inj h ▸ rfl⟩
      · exact hsame h
    | skewed => exact .inr ⟨d, rfl, Option.some.inj h ▸ rfl⟩
    | collected _ _ =>
      rw [TimerEntry.tell] at h
      split_ifs at h
      exact hsame h
    | passed _ _ | fired _ _ _ _ _ _ | finalized _ _ _ => exact hsame h

theorem Dead.append {after : List TimerEntry} (h : Dead log te) (hstory : Story (log ++ after)) :
    Dead (log ++ after) te := by
  induction after using List.reverseRecOn with
  | nil => rwa [List.append_nil]
  | append_singleton after e ih =>
    rw [← List.append_assoc] at hstory ⊢
    have hdead := ih hstory.of_append
    have he : Legal (log ++ after) e := hstory _ e [] rfl
    obtain ⟨e', he', hcreates⟩ := hdead.created
    refine ⟨⟨e', List.mem_append_left _ he', hcreates⟩, fun c hc => ?_⟩
    rw [told_snoc] at hc
    rcases TimerEntry.tell_id (he.not_creates hdead.created) hc with hid | ⟨d, hd, hid⟩
    · exact hid
    · rw [hid, hdead.deleted d hd]

theorem dead_of_mem (hstory : Story log) (he : e ∈ log) (hkills : e.Kills te) : Dead log te := by
  obtain ⟨before, after, rfl⟩ := List.append_of_mem he
  have hlegal : Legal before e := hstory before e after rfl
  rw [List.append_cons] at hstory ⊢
  exact (dead_of_kills hlegal hkills).append hstory

/-- The callback of an event is not called after the event was deleted. -/
theorem Story.not_fired {before after : List TimerEntry} (h : Story (before ++ e :: after))
    (hkills : e.Kills te) (id : ℤ) (c : Callbacks) (now : Time) (changes : List TimerChange)
    (ret : ℤ) : .fired te id c now changes ret ∉ after := by
  intro hmem
  obtain ⟨mid, rest, rfl⟩ := List.append_of_mem hmem
  rw [← List.cons_append, ← List.append_assoc] at h
  obtain ⟨t, htold, hlive, -⟩ := h _ _ rest rfl
  exact hlive ((dead_of_mem h.of_append (by simp) hkills).deleted _ htold)

/-- An event that was collected is not told of any more. -/
theorem told_collected {before after : List TimerEntry} {c : Callbacks}
    (h : Story (before ++ .collected te c :: after)) :
    told (before ++ .collected te c :: after) te = none := by
  obtain ⟨t, htold⟩ := h before _ after rfl
  obtain ⟨e', he', hcreates⟩ := creates_of_told htold
  induction after using List.reverseRecOn with
  | nil => rw [told_snoc, TimerEntry.tell, if_pos rfl]
  | append_singleton after e ih =>
    rw [← List.cons_append, ← List.append_assoc] at h ⊢
    have he : Legal _ e := h _ e [] rfl
    rw [told_snoc, ih h.of_append]
    exact TimerEntry.tell_none (he.not_creates ⟨e', List.mem_append_left _ he', hcreates⟩)

/-- An event is collected once. -/
theorem Story.collected_once {before after : List TimerEntry} {c : Callbacks}
    (h : Story (before ++ .collected te c :: after)) (c' : Callbacks) :
    .collected te c' ∉ before ++ after := by
  intro hmem
  rcases List.mem_append.mp hmem with hmem | hmem
  · obtain ⟨front, mid, rfl⟩ := List.append_of_mem hmem
    obtain ⟨t, htold⟩ := h _ _ after rfl
    rw [told_collected h.of_append] at htold
    cases htold
  · obtain ⟨mid, rest, rfl⟩ := List.append_of_mem hmem
    rw [← List.cons_append, ← List.append_assoc] at h
    obtain ⟨t, htold⟩ := h _ _ rest rfl
    rw [told_collected h.of_append] at htold
    cases htold

/-- An event that is not told of any more was collected. -/
theorem collected_of_told_none (hcreated : ∃ e ∈ log, e.Creates te) (h : told log te = none) :
    ∃ c, .collected te c ∈ log := by
  induction log using List.reverseRecOn with
  | nil => simp at hcreated
  | append_singleton log e ih =>
    rw [told_snoc] at h
    rcases hlog : told log te with _ | d
    · obtain ⟨e', he', hcreates⟩ := hcreated
      rcases List.mem_append.mp he' with he' | he'
      · obtain ⟨c, hc⟩ := ih ⟨e', he', hcreates⟩ hlog
        exact ⟨c, List.mem_append_left _ hc⟩
      · obtain rfl : e' = e := by simpa using he'
        obtain ⟨id, c, now, ms, rfl⟩ := hcreates
        simp [TimerEntry.tell] at h
    · rw [hlog] at h
      cases e with
      | collected a c =>
        rw [TimerEntry.tell] at h
        split_ifs at h with ha
        exact ⟨c, by simp [ha]⟩
      | _ =>
        simp only [TimerEntry.tell, Option.map_some] at h
        first | cases h | (split_ifs at h)

/-! ### A pass -/

/-- The call that an entry records. -/
def TimerEntry.request : TimerEntry → Option TimerChange
  | .created _ _ c _ milliseconds =>
    some (.aeCreateTimeEvent milliseconds c.timeProc c.clientData c.finalizerProc)
  | .deleted id _ => some (.aeDeleteTimeEvent id)
  | _ => none

/-- The entries are those of some calls. -/
def Performs (changes : List TimerChange) (side : List TimerEntry) : Prop :=
  side.map TimerEntry.request = changes.map some

/-- What happens to one event in a pass, with the calls that its callbacks make. -/
inductive Turn (te : ℕ) : List TimerEntry → Prop
  | collected (c : Callbacks) (h : c.finalizerProc = none) : Turn te [.collected te c]
  | finalized {c : Callbacks} {proc : ℕ} (h : c.finalizerProc = some proc)
      {changes : List TimerChange} {side : List TimerEntry} (hside : Performs changes side) :
    Turn te (.collected te c :: .finalized proc c.clientData changes :: side)
  | passed (now : Time) : Turn te [.passed te now]
  | rescheduled (id : ℤ) (c : Callbacks) (now now' : Time) {ret : ℤ} (h : ret ≠ nomore)
      {changes : List TimerChange} {side : List TimerEntry} (hside : Performs changes side) :
    Turn te (.fired te id c now changes ret :: (side ++ [.rescheduled te now' ret]))
  | ended (id : ℤ) (c : Callbacks) (now : Time)
      {changes : List TimerChange} {side : List TimerEntry} (hside : Performs changes side) :
    Turn te (.fired te id c now changes nomore :: (side ++ [.ended te]))

/-- A pass over a list has one turn for each event, in order. -/
def ProcessesAll (l : List ℕ) (log : List TimerEntry) : Prop :=
  ∃ turns, log = turns.flatten ∧ List.Forall₂ Turn l turns

theorem processesAll_nil : ProcessesAll [] [] := ⟨[], rfl, .nil⟩

theorem Turn.processesAll (h : Turn te log) : ProcessesAll [te] log :=
  ⟨[log], by simp, .cons h .nil⟩

theorem ProcessesAll.append {l l' : List ℕ} {log' : List TimerEntry} (h : ProcessesAll l log)
    (h' : ProcessesAll l' log') : ProcessesAll (l ++ l') (log ++ log') := by
  obtain ⟨turns, rfl, hturns⟩ := h
  obtain ⟨turns', rfl, hturns'⟩ := h'
  exact ⟨turns ++ turns', List.flatten_append.symm, List.rel_append hturns hturns'⟩

/-- The events that a log tells of are those of `l`. -/
def Lists (log : List TimerEntry) (l : List ℕ) : Prop :=
  l.Nodup ∧ ∀ a, a ∈ l ↔ told log a ≠ none

/-- The log of a list of steps, and the time of the last pass.  Each call is recorded, and
each pass is one over the events that there are at its start; the times are reset before it
if the clock was set back since the pass before. -/
inductive Chronicle (lastTime : ℤ) : List TimerStep → ℤ → List TimerEntry → Prop
  | nil : Chronicle lastTime [] lastTime []
  | change {steps : List TimerStep} {last : ℤ} {log : List TimerEntry} {c : TimerChange}
      {e : TimerEntry} (h : Chronicle lastTime steps last log) (he : e.request = some c) :
    Chronicle lastTime (steps ++ [.change c]) last (log ++ [e])
  | pass {steps : List TimerStep} {last : ℤ} {log new : List TimerEntry} {l : List ℕ} (now : ℤ)
      (h : Chronicle lastTime steps last log) (hl : Lists log l) (hnew : ProcessesAll l new) :
    Chronicle lastTime (steps ++ [.processTimeEvents now]) now
      (log ++ (if now < last then [.skewed] else []) ++ new)

/-- The finalizers that were called. -/
def finalizations (log : List TimerEntry) : List (ℕ × ℕ) :=
  log.filterMap fun
    | .finalized proc clientData _ => some (proc, clientData)
    | _ => none

/-- The finalizers of the events that were collected. -/
def finalizers (log : List TimerEntry) : List (ℕ × ℕ) :=
  log.filterMap fun
    | .collected _ c => c.finalizerProc.map fun proc => (proc, c.clientData)
    | _ => none

theorem Performs.finalizations_eq {changes : List TimerChange} (h : Performs changes log) :
    finalizations log = [] ∧ finalizers log = [] := by
  have hrequest : ∀ e ∈ log, e.request ≠ none := by
    intro e he hnone
    have hmem : e.request ∈ changes.map some := h ▸ List.mem_map_of_mem he
    simp [hnone] at hmem
  refine ⟨?_, ?_⟩ <;>
  · refine List.filterMap_eq_nil_iff.mpr fun e he => ?_
    have hsome := hrequest e he
    cases e <;> first | rfl | exact absurd rfl hsome

theorem Turn.finalizations_eq (h : Turn te log) : finalizations log = finalizers log := by
  cases h with
  | collected c h => simp [finalizations, finalizers, h]
  | passed => rfl
  | finalized h hside =>
    obtain ⟨hleft, hright⟩ := hside.finalizations_eq
    rw [finalizations] at hleft
    rw [finalizers] at hright
    simp [finalizations, finalizers, h, hleft, hright]
  | rescheduled _ _ _ _ _ hside | ended _ _ _ hside =>
    obtain ⟨hleft, hright⟩ := hside.finalizations_eq
    rw [finalizations] at hleft
    rw [finalizers] at hright
    simp [finalizations, finalizers, hleft, hright]

theorem ProcessesAll.finalizations_eq {l : List ℕ} (h : ProcessesAll l log) :
    finalizations log = finalizers log := by
  obtain ⟨turns, rfl, hturns⟩ := h
  induction hturns with
  | nil => rfl
  | cons hturn _ ih =>
    rw [List.flatten_cons, finalizations, finalizers, List.filterMap_append, List.filterMap_append]
    exact congrArg₂ (· ++ ·) hturn.finalizations_eq ih

/-- The finalizers that were called are those of the events that were collected. -/
theorem Chronicle.finalizations_eq {lastTime last : ℤ} {steps : List TimerStep}
    (h : Chronicle lastTime steps last log) : finalizations log = finalizers log := by
  have happend : ∀ {log log'}, finalizations log = finalizers log →
      finalizations log' = finalizers log' →
      finalizations (log ++ log') = finalizers (log ++ log') := by
    intro log log' hlog hlog'
    rw [finalizations, finalizers, List.filterMap_append, List.filterMap_append]
    exact congrArg₂ (· ++ ·) hlog hlog'
  induction h with
  | nil => rfl
  | @change _ _ _ c e _ he ih =>
    have hperforms : Performs [c] [e] := by simp [Performs, he]
    obtain ⟨hleft, hright⟩ := hperforms.finalizations_eq
    exact happend ih (hleft.trans hright.symm)
  | pass now _ _ hnew ih =>
    refine happend (happend ih ?_) hnew.finalizations_eq
    split_ifs <;> rfl

/-! ### What was really called -/

/-- A call of the clock or a callback, with what it returned. -/
inductive EnvCall where
  | aeGetTime (now : Time)
  | timeProc (proc : ℕ) (id : ℤ) (clientData : ℕ) (changes : List TimerChange) (ret : ℤ)
  | finalizerProc (proc clientData : ℕ) (changes : List TimerChange)

/-- The calls that an entry stands for. -/
def TimerEntry.calls : TimerEntry → List EnvCall
  | .created _ _ _ now _ | .passed _ now | .rescheduled _ now _ => [.aeGetTime now]
  | .fired _ id c now changes ret =>
    [.aeGetTime now, .timeProc c.timeProc id c.clientData changes ret]
  | .finalized proc clientData changes => [.finalizerProc proc clientData changes]
  | .deleted .. | .skewed | .ended _ | .collected .. => []

/-- The calls in a log. -/
def calls (log : List TimerEntry) : List EnvCall := log.flatMap TimerEntry.calls

theorem calls_snoc : calls (log ++ [e]) = calls log ++ e.calls := by simp [calls]

/-- The clock and the callbacks, in a world that keeps a record of their calls. -/
def Env.spied {ω : Type} (env : Env ω) : Env (ω × List EnvCall) where
  aeGetTime w :=
    let now := env.aeGetTime w.1
    (now.1, now.2, w.2 ++ [.aeGetTime now.1])
  timeProc w s proc id clientData :=
    let y := env.timeProc w.1 s proc id clientData
    (y.1, y.2.1, y.2.2, w.2 ++ [.timeProc proc id clientData y.1 y.2.1])
  finalizerProc w s proc clientData :=
    let y := env.finalizerProc w.1 s proc clientData
    (y.1, y.2, w.2 ++ [.finalizerProc proc clientData y.1])

/-! ### The list -/

/-- The neighbours of each node. -/
def Timers.links (s : Timers) : Links := fun a => (s.mem a).map fun x => (x.prev, x.next)

/-- The list of the time events is `l`, with different ids for those that are not deleted. -/
structure Timers.Wf (s : Timers) (l : List ℕ) : Prop where
  linked : Linked s.links s.timeEventHead l
  lt_fresh : ∀ a ∈ l, a < s.fresh
  nextId_nonneg : 0 ≤ s.timeEventNextId
  id_range : ∀ a ∈ l, ∀ x, s.mem a = some x →
    x.id = deletedEventId ∨ 0 ≤ x.id ∧ x.id < s.timeEventNextId
  id_inj : ∀ a ∈ l, ∀ b ∈ l, ∀ x y, s.mem a = some x → s.mem b = some y →
    x.id ≠ deletedEventId → x.id = y.id → a = b

/-- The events of `l` are still there, changed by `g`. -/
structure Kept (s s' : Timers) (l : List ℕ) (g : ℕ → Core → Core) : Prop where
  fresh_eq : s'.fresh = s.fresh
  nextId_eq : s'.timeEventNextId = s.timeEventNextId
  lastTime_eq : s'.lastTime = s.lastTime
  node : ∀ a ∈ l, ∀ x, s.mem a = some x → ∃ y, s'.mem a = some y ∧ y.core = g a x.core

section

variable {s s' : Timers} {l l' front back : List ℕ} {a : ℕ} {x : TimeEvent} {g : ℕ → Core → Core}

theorem Kept.refl : Kept s s l fun _ c => c := ⟨rfl, rfl, rfl, fun _ _ x hx => ⟨x, hx, rfl⟩⟩

theorem Timers.Wf.create (lastTime : ℤ) : (Timers.create lastTime).Wf [] :=
  ⟨linked_nil, by simp, le_rfl, by simp, by simp⟩

/-- The neighbours of an event in the list. -/
theorem Timers.Wf.node (h : s.Wf (front ++ te :: back)) :
    ∃ x, s.mem te = some x ∧ x.prev = front.getLast? ∧ x.next = back.head? := by
  obtain ⟨x, hx, heq⟩ := Option.map_eq_some_iff.mp (h.linked.node front te back rfl)
  exact ⟨x, hx, congrArg Prod.fst heq, congrArg Prod.snd heq⟩

theorem Timers.Wf.exists_mem (h : s.Wf l) (ha : a ∈ l) : ∃ x, s.mem a = some x := by
  obtain ⟨front, back, rfl⟩ := List.append_of_mem ha
  obtain ⟨x, hx, -⟩ := h.node
  exact ⟨x, hx⟩

/-- Each node comes from one before, unless it is deleted or the new one. -/
theorem Timers.Wf.of_nodes (h : s.Wf l) (te : ℕ) (hlinked : Linked s'.links s'.timeEventHead l')
    (hfresh : ∀ a ∈ l', a < s'.fresh) (hnextId : s.timeEventNextId ≤ s'.timeEventNextId)
    (hnode : ∀ a ∈ l', ∀ y, s'.mem a = some y → y.id = deletedEventId ∨
      (a = te ∧ s.timeEventNextId ≤ y.id ∧ y.id < s'.timeEventNextId) ∨
      ∃ x, a ∈ l ∧ s.mem a = some x ∧ y.id = x.id) :
    s'.Wf l' := by
  have hnonneg := h.nextId_nonneg
  -- the ids of the events before are below the new one
  have hold : ∀ a ∈ l, ∀ x, s.mem a = some x → x.id ≠ deletedEventId →
      0 ≤ x.id ∧ x.id < s.timeEventNextId :=
    fun a ha x hx hlive => (h.id_range a ha x hx).resolve_left hlive
  refine ⟨hlinked, hfresh, hnonneg.trans hnextId, fun a ha y hy => ?_,
    fun a ha b hb y z hy hz hlive heq => ?_⟩
  · rcases hnode a ha y hy with hid | ⟨-, hlow, hhigh⟩ | ⟨x, ha, hx, hid⟩
    · exact .inl hid
    · exact .inr ⟨hnonneg.trans hlow, hhigh⟩
    · rw [hid]
      exact (h.id_range a ha x hx).imp_right fun hrange => ⟨hrange.1, hrange.2.trans_le hnextId⟩
  · rcases (hnode a ha y hy).resolve_left hlive with ⟨hte, hlow, -⟩ | ⟨x, ha, hx, hid⟩ <;>
      rcases (hnode b hb z hz).resolve_left (heq ▸ hlive) with ⟨hte', hlow', -⟩ | ⟨w, hb, hw, hid'⟩
    · exact hte.trans hte'.symm
    · have hlt := (hold b hb w hw (by rwa [← hid', ← heq])).2
      omega
    · have hlt := (hold a ha x hx (by rwa [← hid])).2
      omega
    · exact h.id_inj a ha b hb x w hx hw (hid ▸ hlive) (by rw [← hid, heq, hid'])

/-- A node after a change, from the node before. -/
theorem Timers.Wf.exists_of_kept (h : s.Wf l) (hk : Kept s s' l' g) (ha : a ∈ l) (ha' : a ∈ l')
    {y : TimeEvent} (hy : s'.mem a = some y) : ∃ x, s.mem a = some x ∧ y.core = g a x.core := by
  obtain ⟨x, hx⟩ := h.exists_mem ha
  obtain ⟨z, hz, hcore⟩ := hk.node a ha' x hx
  obtain rfl : z = y := Option.some.inj (hz.symm.trans hy)
  exact ⟨x, hx, hcore⟩

theorem Timers.Wf.kept (h : s.Wf l) (hk : Kept s s' l' g)
    (hg : ∀ a c, (g a c).id = c.id ∨ (g a c).id = deletedEventId) (hsub : ∀ a ∈ l', a ∈ l)
    (hlinked : Linked s'.links s'.timeEventHead l') : s'.Wf l' := by
  refine h.of_nodes 0 hlinked (fun a ha => ?_) hk.nextId_eq.ge fun a ha y hy => ?_
  · rw [hk.fresh_eq]
    exact h.lt_fresh a (hsub a ha)
  · obtain ⟨x, hx, hcore⟩ := h.exists_of_kept hk (hsub a ha) ha hy
    have hid : y.id = (g a x.core).id := congrArg Core.id hcore
    rcases hg a x.core with hsame | hdeleted
    · exact .inr (.inr ⟨x, hsub a ha, hx, hid.trans hsame⟩)
    · exact .inl (hid.trans hdeleted)

/-- A node is written, but not its neighbours. -/
theorem Timers.Wf.modify (h : s.Wf l) (ha : a ∈ l) (f : TimeEvent → TimeEvent) (g : Core → Core)
    (hlinks : ∀ x, (f x).prev = x.prev ∧ (f x).next = x.next)
    (hcore : ∀ x, (f x).core = g x.core) (hg : ∀ c, (g c).id = c.id ∨ (g c).id = deletedEventId) :
    ∃ s', s.modify a f = some s' ∧ Kept s s' l (fun b c => if a = b then g c else c) ∧
      s'.Wf l := by
  obtain ⟨x, hx⟩ := h.exists_mem ha
  have hkept : Kept s { s with mem := update s.mem a (some (f x)) } l
      (fun b c => if a = b then g c else c) := by
    refine ⟨rfl, rfl, rfl, fun b hb y hy => ?_⟩
    by_cases hab : a = b
    · subst hab
      obtain rfl : x = y := Option.some.inj (hx.symm.trans hy)
      exact ⟨f x, update_self .., by rw [hcore, if_pos rfl]⟩
    · exact ⟨y, by rw [← hy]; exact update_of_ne (Ne.symm hab) .., (if_neg hab).symm⟩
  refine ⟨_, by rw [Timers.modify, hx]; rfl, hkept,
    h.kept hkept (fun b c => ?_) (fun _ hb => hb) (h.linked.congr fun b hb => ?_)⟩
  · split_ifs
    · exact hg c
    · exact .inl rfl
  · by_cases hba : b = a
    · subst hba
      simp [Timers.links, hx, hlinks]
    · simp [Timers.links, hba]

theorem modifyIf_eq {te : Option ℕ} {f : TimeEvent → TimeEvent}
    (h : ∀ a, te = some a → s.mem a ≠ none) :
    s.modifyIf te f =
      some { s with mem := fun b => if te = some b then (s.mem b).map f else s.mem b } := by
  rcases te with _ | a
  · simp [Timers.modifyIf]
  · obtain ⟨x, hx⟩ := Option.ne_none_iff_exists'.mp (h a rfl)
    simp only [Timers.modifyIf, Timers.modify, hx, Option.map_some, Option.some.injEq,
      Timers.mk.injEq, true_and, and_true]
    funext b
    by_cases hba : b = a
    · subst hba
      simp [hx]
    · rw [update_of_ne hba, if_neg fun heq => hba heq.symm]

/-- The node `y` at `b` after `x` was taken out of the list. -/
def TimeEvent.without (x : TimeEvent) (b : ℕ) (y : TimeEvent) : TimeEvent :=
  { y with
    prev := if x.next = some b then x.prev else y.prev
    next := if x.prev = some b then x.next else y.next }

theorem unlinkTimer_eq (hprev : ∀ a, x.prev = some a → s.mem a ≠ none)
    (hnext : ∀ a, x.next = some a → s.mem a ≠ none) :
    unlinkTimer s x = some
      { s with
        timeEventHead := if x.prev = none then x.next else s.timeEventHead
        mem := fun b => (s.mem b).map (x.without b) } := by
  have hfirst : unlinkTimer s x = Timers.modifyIf
      { s with
        timeEventHead := if x.prev = none then x.next else s.timeEventHead
        mem := fun b =>
          if x.prev = some b then (s.mem b).map fun y => { y with next := x.next } else s.mem b }
      x.next fun y => { y with prev := x.prev } := by
    have hmodify := modifyIf_eq (f := fun y => { y with next := x.next }) hprev
    rw [unlinkTimer]
    rcases heq : x.prev with _ | prev
    · simp
    · rw [heq] at hmodify
      change s.modify prev _ = _ at hmodify
      simp [hmodify]
  rw [hfirst, modifyIf_eq]
  · congr 2
    funext b
    rcases hy : s.mem b with _ | y
    · simp [hy]
    · by_cases hb : x.prev = some b <;> by_cases hb' : x.next = some b <;>
        simp [hy, hb, hb', TimeEvent.without]
  · intro a ha
    by_cases hb : x.prev = some a
    · simpa [hb] using hnext a ha
    · simpa [hb] using hnext a ha

/-- A node is taken out of the list. -/
theorem unlinkTimer_spec (h : s.Wf (front ++ te :: back)) (hx : s.mem te = some x) :
    ∃ s', unlinkTimer s x = some s' ∧ Kept s s' (front ++ back) (fun _ c => c) ∧
      s'.Wf (front ++ back) := by
  obtain ⟨y, hy, hprev, hnext⟩ := h.node
  obtain rfl : x = y := Option.some.inj (hx.symm.trans hy)
  have hmem : ∀ a ∈ front ++ back, a ∈ front ++ te :: back := by
    intro a ha
    rcases List.mem_append.mp ha with ha | ha <;> simp [ha]
  have hsome : ∀ a ∈ front ++ back, s.mem a ≠ none := by
    intro a ha
    obtain ⟨y, hy⟩ := h.exists_mem (hmem a ha)
    rw [hy]
    exact Option.some_ne_none y
  have hkept : Kept s
      { s with
        timeEventHead := if x.prev = none then x.next else s.timeEventHead
        mem := fun b => (s.mem b).map (x.without b) } (front ++ back) fun _ c => c :=
    ⟨rfl, rfl, rfl, fun a ha y hy => ⟨x.without a y, congrArg (Option.map _) hy, rfl⟩⟩
  refine ⟨_, unlinkTimer_eq ?_ ?_, hkept, h.kept hkept (fun _ _ => .inl rfl) hmem ?_⟩
  · intro a ha
    exact hsome a (List.mem_append_left _ (List.mem_of_getLast? (hprev ▸ ha)))
  · intro a ha
    exact hsome a (List.mem_append_right _ (List.mem_of_head? (hnext ▸ ha)))
  · have hhead : (if x.prev = none then x.next else s.timeEventHead) = (front ++ back).head? := by
      rw [hprev, hnext, h.linked.head_eq]
      cases front <;> simp
    rw [hhead]
    -- a node is not before `te` and after it
    have hdisjoint : ∀ b, front.getLast? = some b → back.head? ≠ some b := by
      intro b hb hb'
      have hnodup := h.linked.nodup
      rw [List.nodup_append] at hnodup
      have hmem' : b ∈ te :: back := List.mem_cons_of_mem _ (List.mem_of_head? hb')
      exact hnodup.2.2 b (List.mem_of_getLast? hb) b hmem' rfl
    refine h.linked.unlink ?_ ?_ ?_
    · intro b y hb hy
      obtain ⟨z, hz, rfl⟩ := Option.map_eq_some_iff.mp hy
      simp [Timers.links, hz, TimeEvent.without, hprev, hnext, hb, hdisjoint b hb]
    · intro b y hb hy
      obtain ⟨z, hz, rfl⟩ := Option.map_eq_some_iff.mp hy
      have hne : front.getLast? ≠ some b := fun hb' => hdisjoint b hb' hb
      simp [Timers.links, hz, TimeEvent.without, hprev, hnext, hb, hne]
    · intro b hb hne hne'
      simp [Timers.links, TimeEvent.without, hprev, hnext, hne, hne', Function.comp_def]

/-- A node with a new id is put at the head of the list. -/
theorem Timers.Wf.push (h : s.Wf l) (hfresh : s'.fresh = s.fresh + 1)
    (hnextId : s'.timeEventNextId = s.timeEventNextId + 1)
    (hlinked : Linked s'.links s'.timeEventHead (s.fresh :: l)) (hx : s'.mem s.fresh = some x)
    (hid : x.id = s.timeEventNextId)
    (hnode : ∀ a ∈ l, ∀ x, s.mem a = some x → ∃ y, s'.mem a = some y ∧ y.core = x.core) :
    s'.Wf (s.fresh :: l) := by
  refine h.of_nodes s.fresh hlinked (fun a ha => ?_) (by omega) fun a ha y hy => ?_
  · rw [hfresh]
    rcases List.mem_cons.mp ha with rfl | ha
    · exact Nat.lt_succ_self _
    · exact (h.lt_fresh a ha).trans (Nat.lt_succ_self _)
  · rcases List.mem_cons.mp ha with rfl | ha
    · obtain rfl : x = y := Option.some.inj (hx.symm.trans hy)
      exact .inr (.inl ⟨rfl, by omega, by omega⟩)
    · obtain ⟨v, hv⟩ := h.exists_mem ha
      obtain ⟨z, hz, hcore⟩ := hnode a ha v hv
      obtain rfl : z = y := Option.some.inj (hz.symm.trans hy)
      exact .inr (.inr ⟨v, ha, hv, congrArg Core.id hcore⟩)

theorem aeCreateTimeEvent_spec (h : s.Wf l) (now : Time) (milliseconds : ℤ) (proc clientData : ℕ)
    (finalizerProc : Option ℕ) :
    ∃ s' x, aeCreateTimeEvent s now milliseconds proc clientData finalizerProc = some s' ∧
      s'.Wf (s.fresh :: l) ∧ s'.fresh = s.fresh + 1 ∧
      s'.timeEventNextId = s.timeEventNextId + 1 ∧ s'.lastTime = s.lastTime ∧
      s'.mem s.fresh = some x ∧
      x.core = ⟨s.timeEventNextId, aeAddMillisecondsToNow now milliseconds,
        ⟨proc, finalizerProc, clientData⟩⟩ ∧
      ∀ a ∈ l, ∀ x, s.mem a = some x → ∃ y, s'.mem a = some y ∧ y.core = x.core := by
  have hfresh : s.fresh ∉ l := fun hmem => (h.lt_fresh _ hmem).false
  have hhead : ∀ a, s.timeEventHead = some a → a ∈ l := by
    intro a ha
    exact List.mem_of_head? (h.linked.head_eq ▸ ha)
  have hne : ∀ a ∈ l, a ≠ s.fresh := fun a ha heq => hfresh (heq ▸ ha)
  have hself : s.timeEventHead ≠ some s.fresh := fun heq => hfresh (hhead _ heq)
  rw [aeCreateTimeEvent, modifyIf_eq]
  · refine ⟨_, _, rfl, h.push rfl rfl ?_ (by simp [hself]; rfl) rfl ?_, rfl, rfl, rfl,
      by simp [hself]; rfl, rfl, ?_⟩
    · refine h.linked.push hfresh (by simp [Timers.links, hself]) ?_ ?_
      · intro b y hb hy
        obtain ⟨z, hz, rfl⟩ := Option.map_eq_some_iff.mp hy
        simp [Timers.links, hb, hne b (hhead b hb), hz]
      · intro b hb hfirst
        simp [Timers.links, hfirst, hne b hb]
    all_goals
      intro a ha x hx
      by_cases hfirst : s.timeEventHead = some a
      · exact ⟨{ x with prev := some s.fresh }, by simp [hfirst, hne a ha, hx], rfl⟩
      · exact ⟨x, by simp [hfirst, hne a ha, hx], rfl⟩
  · intro a ha
    obtain ⟨x, hx⟩ := h.exists_mem (hhead a ha)
    simp [hne a (hhead a ha), hx]

/-- The search finds a node with the id, or there is none. -/
theorem searchId_spec (h : s.Wf (front ++ back)) (id : ℤ) {fuel : ℕ}
    (hfuel : back.length ≤ fuel) :
    ∃ r, searchId s.mem id fuel back.head? = some r ∧
      (∀ a, r = some a → a ∈ back ∧ ∃ x, s.mem a = some x ∧ x.id = id) ∧
      (r = none → ∀ a ∈ back, ∀ x, s.mem a = some x → x.id ≠ id) := by
  induction back generalizing front fuel with
  | nil => exact ⟨none, by rw [List.head?_nil, searchId], by simp, by simp⟩
  | cons te back ih =>
    obtain ⟨fuel, rfl⟩ := Nat.exists_eq_add_one_of_ne_zero (Nat.ne_zero_of_lt hfuel)
    obtain ⟨x, hx, -, hnext⟩ := h.node
    rw [List.append_cons] at h
    obtain ⟨r, hr, hsome, hnone⟩ := ih h (Nat.le_of_succ_le_succ hfuel)
    by_cases hid : x.id = id
    · refine ⟨some te, by simp [searchId, hx, hid], ?_, by simp⟩
      rintro a ⟨⟩
      exact ⟨List.mem_cons_self, x, hx, hid⟩
    · refine ⟨r, by simp [searchId, hx, hid, hnext, hr], fun a ha => ?_, fun hr a ha y hy => ?_⟩
      · obtain ⟨hmem, hnode⟩ := hsome a ha
        exact ⟨List.mem_cons_of_mem te hmem, hnode⟩
      · rcases List.mem_cons.mp ha with rfl | ha
        · obtain rfl : x = y := Option.some.inj (hx.symm.trans hy)
          exact hid
        · exact hnone hr a ha y hy

/-- The node with the id is marked as deleted, if there is one. -/
theorem aeDeleteTimeEvent_spec (h : s.Wf l) (id : ℤ) :
    ∃ s' te, aeDeleteTimeEvent s id = some (s', te) ∧ s'.Wf l ∧
      Kept s s' l (fun a c => if te = some a then c.deleted else c) ∧
      (∀ a, te = some a → a ∈ l ∧ ∃ x, s.mem a = some x ∧ x.id = id) ∧
      (te = none → ∀ a ∈ l, ∀ x, s.mem a = some x → x.id ≠ id) := by
  obtain ⟨r, hr, hsome, hnone⟩ :=
    searchId_spec (show s.Wf ([] ++ l) from h) id (h.linked.length_le h.lt_fresh)
  rw [← h.linked.head_eq] at hr
  rcases r with _ | te
  · exact ⟨s, none, by simp [aeDeleteTimeEvent, hr, Timers.modifyIf], h, by simpa using Kept.refl,
      by simp, hnone⟩
  · obtain ⟨s', hs', hkept, hwf⟩ := h.modify (hsome te rfl).1
      (fun x => { x with id := deletedEventId }) Core.deleted (fun _ => ⟨rfl, rfl⟩)
      (fun _ => rfl) (fun _ => .inr rfl)
    exact ⟨s', some te, by simp [aeDeleteTimeEvent, hr, Timers.modifyIf, hs'], hwf,
      by simpa using hkept, hsome, nofun⟩

/-- The loop sets the seconds of the times of all events to zero. -/
theorem skewLoop_spec (h : s.Wf (front ++ back)) {fuel : ℕ} (hfuel : back.length ≤ fuel) :
    ∃ s', skewLoop fuel back.head? s = some s' ∧ s'.Wf (front ++ back) ∧
      Kept s s' (front ++ back) (fun a c => if a ∈ back then c.skewed else c) := by
  induction back generalizing front fuel s with
  | nil => exact ⟨s, by rw [List.head?_nil, skewLoop], h, by simpa using Kept.refl⟩
  | cons te back ih =>
    obtain ⟨fuel, rfl⟩ := Nat.exists_eq_add_one_of_ne_zero (Nat.ne_zero_of_lt hfuel)
    obtain ⟨s', hs', hkept, hwf⟩ := h.modify (a := te) (by simp)
      (fun x => { x with whenSec := 0 }) Core.skewed (fun _ => ⟨rfl, rfl⟩) (fun _ => rfl)
      (fun _ => .inl rfl)
    obtain ⟨x, hx, -, hnext⟩ := hwf.node
    rw [List.append_cons] at hwf
    obtain ⟨s'', hs'', hwf', hkept'⟩ := ih hwf (Nat.le_of_succ_le_succ hfuel)
    have hnot : te ∉ back := by
      intro hmem
      exact (List.nodup_append.mp hwf.linked.nodup).2.2 te (by simp) te hmem rfl
    rw [← List.append_cons] at hkept' hwf'
    refine ⟨s'', by simp [skewLoop, hs', hx, hnext, hs''], hwf', ?_, ?_, ?_, fun a ha y hy => ?_⟩
    · rw [hkept'.fresh_eq, hkept.fresh_eq]
    · rw [hkept'.nextId_eq, hkept.nextId_eq]
    · rw [hkept'.lastTime_eq, hkept.lastTime_eq]
    · obtain ⟨z, hz, hcore⟩ := hkept.node a ha y hy
      obtain ⟨w, hw, hcore'⟩ := hkept'.node a ha z hz
      refine ⟨w, hw, ?_⟩
      rw [hcore', hcore]
      by_cases hte : te = a
      · subst hte
        simp [hnot]
      · simp [hte, Ne.symm hte]

end

/-! ### The list and the log -/

/-- The list in memory is what a log tells. -/
structure Recorded (s : Timers) (log : List TimerEntry) (l : List ℕ) : Prop where
  wf : s.Wf l
  story : Story log
  created_iff : ∀ a, (∃ e ∈ log, e.Creates a) ↔ a < s.fresh
  id_lt : ∀ a id c now ms, .created a id c now ms ∈ log → id < s.timeEventNextId
  told_eq : ∀ a, told log a = if a ∈ l then (s.mem a).map TimeEvent.core else none

section

variable {s s' : Timers} {l l' front back : List ℕ} {a : ℕ} {x : TimeEvent} {g : ℕ → Core → Core}

theorem Recorded.create (lastTime : ℤ) : Recorded (Timers.create lastTime) [] [] :=
  ⟨.create lastTime, story_nil, by simp [Timers.create], by simp, by simp [told]⟩

theorem Recorded.told_mem (h : Recorded s log l) (ha : a ∈ l) (hx : s.mem a = some x) :
    told log a = some x.core := by
  rw [h.told_eq, if_pos ha, hx]
  rfl

/-- What is told is in the list. -/
theorem Recorded.exists_mem (h : Recorded s log l) {c : Core} (hc : told log a = some c) :
    a ∈ l ∧ ∃ x, s.mem a = some x ∧ x.core = c := by
  rw [h.told_eq] at hc
  split_ifs at hc with ha
  exact ⟨ha, Option.map_eq_some_iff.mp hc⟩

theorem Recorded.lists (h : Recorded s log l) : Lists log l := by
  refine ⟨h.wf.linked.nodup, fun a => ⟨fun ha => ?_, fun ha => ?_⟩⟩
  · obtain ⟨x, hx⟩ := h.wf.exists_mem ha
    rw [h.told_mem ha hx]
    exact Option.some_ne_none _
  · obtain ⟨c, hc⟩ := Option.ne_none_iff_exists'.mp ha
    exact (h.exists_mem hc).1

/-- Something other than a creation is recorded, and the list is changed as it says. -/
theorem Recorded.snoc (h : Recorded s log l) (hwf : s'.Wf l') (he : Legal log e)
    (hnew : ∀ a, ¬ e.Creates a) (hfresh : s'.fresh = s.fresh)
    (hnextId : s'.timeEventNextId = s.timeEventNextId)
    (htold : ∀ a, e.tell a (told log a) = if a ∈ l' then (s'.mem a).map TimeEvent.core else none) :
    Recorded s' (log ++ [e]) l' := by
  refine ⟨hwf, h.story.snoc he, fun a => ?_, fun a id c now ms hmem => ?_, fun a => ?_⟩
  · rw [hfresh, ← h.created_iff]
    simp [hnew]
  · rw [hnextId]
    rcases List.mem_append.mp hmem with hmem | hmem
    · exact h.id_lt a id c now ms hmem
    · exact absurd ⟨id, c, now, ms, (List.mem_singleton.mp hmem).symm⟩ (hnew a)
  · rw [told_snoc, htold]

/-- The events of the list are changed as an entry says. -/
theorem Recorded.kept (h : Recorded s log l) (hk : Kept s s' l g) (hwf : s'.Wf l)
    (he : Legal log e) (hnew : ∀ a, ¬ e.Creates a)
    (htell : ∀ a ∈ l, ∀ c, e.tell a (some c) = some (g a c)) : Recorded s' (log ++ [e]) l := by
  refine h.snoc hwf he hnew hk.fresh_eq hk.nextId_eq fun a => ?_
  rw [h.told_eq]
  split_ifs with ha
  · obtain ⟨x, hx⟩ := h.wf.exists_mem ha
    obtain ⟨y, hy, hcore⟩ := hk.node a ha x hx
    rw [hx, hy, Option.map_some, Option.map_some, htell a ha, hcore]
  · exact TimerEntry.tell_none (hnew a)

/-- Something is recorded that changes no event. -/
theorem Recorded.note (h : Recorded s log l) (he : Legal log e) (hnew : ∀ a, ¬ e.Creates a)
    (htell : ∀ a c, e.tell a c = c) : Recorded s (log ++ [e]) l :=
  h.kept .refl h.wf he hnew fun _ _ _ => htell _ _

theorem Recorded.lastTime (h : Recorded s log l) (now : ℤ) :
    Recorded { s with lastTime := now } log l :=
  ⟨⟨h.wf.linked, h.wf.lt_fresh, h.wf.nextId_nonneg, h.wf.id_range, h.wf.id_inj⟩, h.story,
    h.created_iff, h.id_lt, h.told_eq⟩

/-- An event is created. -/
theorem Recorded.push (h : Recorded s log l) (hwf : s'.Wf (s.fresh :: l))
    (hfresh : s'.fresh = s.fresh + 1) (hnextId : s'.timeEventNextId = s.timeEventNextId + 1)
    (hx : s'.mem s.fresh = some x) {now : Time} {milliseconds : ℤ} {c : Callbacks}
    (hcore : x.core = ⟨s.timeEventNextId, aeAddMillisecondsToNow now milliseconds, c⟩)
    (hnode : ∀ a ∈ l, ∀ x, s.mem a = some x → ∃ y, s'.mem a = some y ∧ y.core = x.core) :
    Recorded s' (log ++ [.created s.fresh s.timeEventNextId c now milliseconds])
      (s.fresh :: l) := by
  have hnonneg := h.wf.nextId_nonneg
  refine ⟨hwf, h.story.snoc ⟨?_, ?_, ?_⟩, fun a => ?_, fun a id c' now' ms hmem => ?_, fun a => ?_⟩
  · intro id c now ms hmem
    exact ((h.created_iff _).mp ⟨_, hmem, id, c, now, ms, rfl⟩).false
  · intro a c now ms hmem
    exact (h.id_lt a _ c now ms hmem).false
  · rw [deletedEventId]
    omega
  · rw [hfresh, Nat.lt_succ_iff_lt_or_eq, ← h.created_iff]
    simp [TimerEntry.Creates, or_and_right, exists_or, eq_comm]
  · rw [hnextId]
    rcases List.mem_append.mp hmem with hmem | hmem
    · exact (h.id_lt a id c' now' ms hmem).trans (Int.lt_succ _)
    · cases List.mem_singleton.mp hmem
      exact Int.lt_succ _
  · rw [told_snoc, TimerEntry.tell, h.told_eq]
    by_cases ha : s.fresh = a
    · subst ha
      simp [hx, hcore]
    · rw [if_neg ha]
      by_cases hmem : a ∈ l
      · obtain ⟨y, hy⟩ := h.wf.exists_mem hmem
        obtain ⟨z, hz, hcore'⟩ := hnode a hmem y hy
        simp [hmem, hy, hz, hcore']
      · simp [hmem, Ne.symm ha]

/-- A deleted event is taken out of the list. -/
theorem Recorded.collect (h : Recorded s log (front ++ te :: back)) (hx : s.mem te = some x)
    (hid : x.id = deletedEventId) (hk : Kept s s' (front ++ back) fun _ c => c)
    (hwf : s'.Wf (front ++ back)) :
    Recorded s' (log ++ [.collected te x.callbacks]) (front ++ back) := by
  have htold := h.told_mem (by simp) hx
  have hnot : te ∉ front ++ back := (List.nodup_middle.mp h.wf.linked.nodup).notMem
  refine h.snoc hwf ⟨x.when, ?_⟩ (by simp [TimerEntry.Creates]) hk.fresh_eq hk.nextId_eq fun a => ?_
  · rw [htold, TimeEvent.core, hid]
  · rw [TimerEntry.tell]
    by_cases ha : te = a
    · subst ha
      rw [if_pos rfl, if_neg hnot]
    · have hmem : a ∈ front ++ te :: back ↔ a ∈ front ++ back := by simp [Ne.symm ha]
      rw [if_neg ha, h.told_eq]
      simp only [hmem]
      split_ifs with hlisted
      · obtain ⟨y, hy⟩ := h.wf.exists_mem (hmem.mpr hlisted)
        obtain ⟨z, hz, hcore⟩ := hk.node a hlisted y hy
        rw [hy, hz, Option.map_some, Option.map_some, hcore]
      · rfl

/-- The memory of a node that is not in the list is freed. -/
theorem Recorded.free (h : Recorded s log l) (hte : te ∉ l) :
    Recorded { s with mem := update s.mem te none } log l := by
  have hne : ∀ a ∈ l, a ≠ te := fun a ha heq => hte (heq ▸ ha)
  have hkept : Kept s { s with mem := update s.mem te none } l fun _ c => c :=
    ⟨rfl, rfl, rfl, fun a ha x hx => ⟨x, by simp [hne a ha, hx], rfl⟩⟩
  refine ⟨h.wf.kept hkept (fun _ _ => .inl rfl) (fun _ ha => ha) ?_, h.story, h.created_iff,
    h.id_lt, fun a => ?_⟩
  · exact h.wf.linked.congr fun a ha => by simp [Timers.links, hne a ha]
  · rw [h.told_eq]
    split_ifs with ha
    · simp [hne a ha]
    · rfl

end

/-! ### Calls -/

/-- The events of `l` stay, with their ids unless they are deleted. -/
structure Stays (s s' : Timers) (l : List ℕ) : Prop where
  lastTime_eq : s'.lastTime = s.lastTime
  node : ∀ a ∈ l, ∀ x, s.mem a = some x →
    ∃ y, s'.mem a = some y ∧ (y.id = x.id ∨ y.id = deletedEventId)

section

variable {s s' s'' : Timers} {l l' : List ℕ} {g : ℕ → Core → Core}

theorem Stays.refl : Stays s s l := ⟨rfl, fun _ _ x hx => ⟨x, hx, .inl rfl⟩⟩

theorem Stays.mono (h : Stays s s' l) (hsub : ∀ a ∈ l', a ∈ l) : Stays s s' l' :=
  ⟨h.lastTime_eq, fun a ha => h.node a (hsub a ha)⟩

theorem Stays.trans (h : Stays s s' l) (h' : Stays s' s'' l) : Stays s s'' l := by
  refine ⟨h'.lastTime_eq.trans h.lastTime_eq, fun a ha x hx => ?_⟩
  obtain ⟨y, hy, hid⟩ := h.node a ha x hx
  obtain ⟨z, hz, hid'⟩ := h'.node a ha y hy
  refine ⟨z, hz, ?_⟩
  rcases hid' with hid' | hid'
  · rwa [hid']
  · exact .inr hid'

theorem Kept.stays (h : Kept s s' l g)
    (hg : ∀ a c, (g a c).id = c.id ∨ (g a c).id = deletedEventId) : Stays s s' l := by
  refine ⟨h.lastTime_eq, fun a ha x hx => ?_⟩
  obtain ⟨y, hy, hcore⟩ := h.node a ha x hx
  have hid : y.id = (g a x.core).id := congrArg Core.id hcore
  exact ⟨y, hy, (hg a x.core).imp hid.trans hid.trans⟩

end

section

variable {ω : Type} (env : Env ω) {p p' : Clockwork (ω × List EnvCall)} {l l' front back : List ℕ}

/-- The list in memory is what the log tells, and the log has the calls that were made. -/
structure Faithful (p : Clockwork (ω × List EnvCall)) (l : List ℕ) : Prop where
  recorded : Recorded p.timers p.log l
  calls_eq : p.world.2 = calls p.log

/-- What calls do: events are put at the head of the list, and others are deleted. -/
structure Grows (p p' : Clockwork (ω × List EnvCall)) (l l' : List ℕ) (cs : List TimerChange) :
    Prop where
  faithful : Faithful p' l'
  grown : ∃ news, l' = news ++ l
  log_eq : ∃ side, p'.log = p.log ++ side ∧ Performs cs side
  stays : Stays p.timers p'.timers l

theorem timerChange_grows (h : Faithful p l) (c : TimerChange) :
    ∃ p' l', timerChange env.spied p c = some p' ∧ Grows p p' l l' [c] := by
  rcases c with ⟨milliseconds, proc, clientData, finalizerProc⟩ | id
  · obtain ⟨s', x, hs', hwf, hfresh, hnextId, hlast, hx, hcore, hnode⟩ := aeCreateTimeEvent_spec
      h.recorded.wf (env.aeGetTime p.world.1).1 milliseconds proc clientData finalizerProc
    let now := env.spied.aeGetTime p.world
    let e : TimerEntry := .created p.timers.fresh p.timers.timeEventNextId
      ⟨proc, finalizerProc, clientData⟩ now.1 milliseconds
    refine ⟨⟨s', now.2, p.log ++ [e]⟩, p.timers.fresh :: l, ?_, ⟨?_, ?_⟩, ⟨[p.timers.fresh], rfl⟩,
      ⟨[e], rfl, rfl⟩, hlast, fun a ha y hy => ?_⟩
    · rw [timerChange]
      exact congrArg (Option.map _) hs'
    · exact h.recorded.push hwf hfresh hnextId hx hcore hnode
    · rw [calls_snoc, ← h.calls_eq]
      rfl
    · obtain ⟨z, hz, hcore⟩ := hnode a ha y hy
      exact ⟨z, hz, .inl (congrArg Core.id hcore)⟩
  · obtain ⟨s', te, hs', hwf, hkept, hsome, hnone⟩ := aeDeleteTimeEvent_spec h.recorded.wf id
    have hlegal : Legal p.log (.deleted id te) := by
      rcases te with _ | te
      · intro a c hc
        obtain ⟨ha, x, hx, rfl⟩ := h.recorded.exists_mem hc
        exact hnone rfl a ha x hx
      · obtain ⟨hte, x, hx, hid⟩ := hsome te rfl
        exact ⟨x.core, h.recorded.told_mem hte hx, hid⟩
    refine ⟨⟨s', p.world, p.log ++ [.deleted id te]⟩, l, by rw [timerChange, hs']; rfl, ⟨?_, ?_⟩,
      ⟨[], rfl⟩, ⟨[.deleted id te], rfl, rfl⟩, hkept.stays fun a c => ?_⟩
    · refine h.recorded.kept hkept hwf hlegal (by simp [TimerEntry.Creates]) fun a _ c => ?_
      rw [TimerEntry.tell]
      split_ifs <;> rfl
    · rw [calls_snoc, ← h.calls_eq]
      exact (List.append_nil _).symm
    · split_ifs
      · exact .inr rfl
      · exact .inl rfl

theorem timerChanges_grows (h : Faithful p l) (cs : List TimerChange) :
    ∃ p' l', timerChanges env.spied p cs = some p' ∧ Grows p p' l l' cs := by
  induction cs generalizing p l with
  | nil => exact ⟨p, l, rfl, h, ⟨[], rfl⟩, ⟨[], by simp, rfl⟩, .refl⟩
  | cons c cs ih =>
    obtain ⟨p', _, hp', hfaithful, ⟨news, rfl⟩, ⟨side, hlog, hside⟩, hstays⟩ :=
      timerChange_grows env h c
    obtain ⟨p'', _, hp'', hfaithful', ⟨news', rfl⟩, ⟨side', hlog', hside'⟩, hstays'⟩ :=
      ih hfaithful
    refine ⟨p'', _, ?_, hfaithful', ⟨news' ++ news, by simp⟩, ⟨side ++ side', ?_, ?_⟩,
      hstays.trans (hstays'.mono fun _ ha => List.mem_append_right _ ha)⟩
    · rw [timerChanges, List.foldlM_cons, hp']
      exact hp''
    · rw [hlog', hlog, List.append_assoc]
    · rw [Performs, List.map_append, hside, hside']
      rfl

/-! ### Turns -/

/-- The events of `l` were visited, and those of `back` are still in the list, after `front`. -/
structure Passed (p p' : Clockwork (ω × List EnvCall)) (l front back : List ℕ) : Prop where
  faithful : Faithful p' (front ++ back)
  log_eq : ∃ new, p'.log = p.log ++ new ∧ ProcessesAll l new
  stays : Stays p.timers p'.timers back

variable {x : TimeEvent} {now : Time}

/-- The finalizer is called if there is one, after the event was collected. -/
theorem finalize_spec (h : Faithful p l) (x : TimeEvent) (te : ℕ) :
    ∃ p' news side, finalize env.spied p x = some p' ∧ Faithful p' (news ++ l) ∧
      p'.log = p.log ++ side ∧ Turn te (.collected te x.callbacks :: side) ∧
      Stays p.timers p'.timers l := by
  rcases hproc : x.finalizerProc with _ | proc
  · exact ⟨p, [], [], by rw [finalize, hproc], h, by simp, .collected x.callbacks hproc, .refl⟩
  · let y := env.spied.finalizerProc p.world p.timers proc x.clientData
    have hnoted : Faithful ⟨p.timers, y.2, p.log ++ [.finalized proc x.clientData y.1]⟩ l := by
      refine ⟨h.recorded.note trivial (by simp [TimerEntry.Creates]) fun _ _ => rfl, ?_⟩
      rw [calls_snoc, ← h.calls_eq]
      rfl
    obtain ⟨p', _, hp', hfaithful, ⟨news, rfl⟩, ⟨side, hlog, hside⟩, hstays⟩ :=
      timerChanges_grows env hnoted y.1
    refine ⟨p', news, .finalized proc x.clientData y.1 :: side, ?_, hfaithful, ?_,
      .finalized hproc hside, hstays⟩
    · rw [finalize, hproc]
      exact hp'
    · rw [hlog, List.append_assoc]
      rfl

theorem collect_spec (h : Faithful p (front ++ te :: back)) (hx : p.timers.mem te = some x)
    (hid : x.id = deletedEventId) :
    ∃ p' front', collect env.spied te x p = some p' ∧ Passed p p' [te] front' back := by
  obtain ⟨s', hs', hkept, hwf⟩ := unlinkTimer_spec h.recorded.wf hx
  have hcollected :
      Faithful ⟨s', p.world, p.log ++ [.collected te x.callbacks]⟩ (front ++ back) := by
    refine ⟨h.recorded.collect hx hid hkept hwf, ?_⟩
    rw [calls_snoc, ← h.calls_eq]
    exact (List.append_nil _).symm
  obtain ⟨p', news, side, hp', hfaithful, hlog, hturn, hstays⟩ := finalize_spec env hcollected x te
  have hlog' : p'.log = p.log ++ .collected te x.callbacks :: side := by
    rw [hlog, List.append_assoc]
    rfl
  have hout : te ∉ news ++ (front ++ back) := by
    rw [hfaithful.recorded.lists.2, not_not, hlog']
    exact told_collected (hlog' ▸ hfaithful.recorded.story)
  refine ⟨{ p' with timers := { p'.timers with mem := update p'.timers.mem te none } },
    news ++ front, by rw [collect, hs', Option.bind_some, hp']; rfl, ⟨?_, ?_⟩,
    ⟨_, hlog', hturn.processesAll⟩, ?_⟩
  · rw [List.append_assoc]
    exact hfaithful.recorded.free hout
  · exact hfaithful.calls_eq
  · have hback : ∀ a ∈ back, a ∈ front ++ back := fun _ ha => List.mem_append_right _ ha
    refine ((hkept.stays fun _ _ => .inl rfl).mono hback).trans
      ⟨hstays.lastTime_eq, fun a ha y hy => ?_⟩
    obtain ⟨z, hz, hidz⟩ := hstays.node a (hback a ha) y hy
    have hne : a ≠ te := by
      rintro rfl
      exact hout (by simp [ha])
    exact ⟨z, by simp [hne, hz], hidz⟩

/-- A turn ends with a change of the event that was visited, and this is recorded. -/
theorem changed_spec {p' : Clockwork (ω × List EnvCall)} {new : List TimerEntry} {news : List ℕ}
    (hfaithful : Faithful p' (news ++ (front ++ te :: back))) (hlog : p'.log = p.log ++ new)
    (hstays : Stays p.timers p'.timers (front ++ te :: back)) {f : TimeEvent → TimeEvent}
    {g : Core → Core} {e : TimerEntry} {w : ω × List EnvCall}
    (hlinks : ∀ x, (f x).prev = x.prev ∧ (f x).next = x.next) (hcore : ∀ x, (f x).core = g x.core)
    (hg : ∀ c, (g c).id = c.id ∨ (g c).id = deletedEventId) (he : Legal p'.log e)
    (hnew : ∀ a, ¬ e.Creates a)
    (htell : ∀ a c, e.tell a (some c) = some (if te = a then g c else c))
    (hw : w.2 = p'.world.2 ++ e.calls) (hturn : Turn te (new ++ [e])) :
    ∃ p'' front', ((⟨p'.timers, w, p'.log⟩ : Clockwork (ω × List EnvCall)).modify te f).map
      (fun p => p.note e) = some p'' ∧ Passed p p'' [te] front' (te :: back) := by
  have hback : ∀ a ∈ te :: back, a ∈ front ++ te :: back := fun _ ha => List.mem_append_right _ ha
  have hte : te ∈ news ++ (front ++ te :: back) :=
    List.mem_append_right _ (hback te List.mem_cons_self)
  obtain ⟨s', hs', hkept, hwf⟩ := hfaithful.recorded.wf.modify hte f g hlinks hcore hg
  refine ⟨⟨s', w, p'.log ++ [e]⟩, news ++ front, by rw [Clockwork.modify, hs']; rfl, ⟨?_, ?_⟩,
    ⟨_, ?_, hturn.processesAll⟩, ?_⟩
  · rw [List.append_assoc]
    exact hfaithful.recorded.kept hkept hwf he hnew fun a _ c => htell a c
  · rw [calls_snoc, ← hfaithful.calls_eq]
    exact hw
  · rw [hlog, List.append_assoc]
  · refine (hstays.mono hback).trans ((hkept.stays fun a c => ?_).mono fun a ha =>
      List.mem_append_right _ (hback a ha))
    split_ifs
    · exact hg c
    · exact .inl rfl

theorem fire_spec (h : Recorded p.timers p.log (front ++ te :: back))
    (hcalls : p.world.2 = calls p.log ++ [.aeGetTime now]) (hx : p.timers.mem te = some x)
    (hlive : x.id ≠ deletedEventId) (hdue : Due x.when now) :
    ∃ p' front', fire env.spied te x now p = some p' ∧ Passed p p' [te] front' (te :: back) := by
  have hte : te ∈ front ++ te :: back := by simp
  -- the call is recorded
  let y := env.spied.timeProc p.world p.timers x.timeProc x.id x.clientData
  let log := p.log ++ [.fired te x.id x.callbacks now y.1 y.2.1]
  have hfired : Faithful ⟨p.timers, y.2.2, log⟩ (front ++ te :: back) := by
    refine ⟨h.note ⟨x.when, h.told_mem hte hx, hlive, hdue⟩ (by simp [TimerEntry.Creates])
      fun _ _ => rfl, ?_⟩
    change p.world.2 ++ [_] = calls log
    rw [calls_snoc, hcalls, List.append_assoc]
    rfl
  obtain ⟨p', _, hp', hfaithful, ⟨news, rfl⟩, ⟨side, hlog, hside⟩, hstays⟩ :=
    timerChanges_grows env hfired y.1
  have htold : told p'.log te ≠ none :=
    (hfaithful.recorded.lists.2 te).mp (List.mem_append_right _ hte)
  have hlog' : p'.log = p.log ++ .fired te x.id x.callbacks now y.1 y.2.1 :: side := by
    rw [hlog, List.append_assoc]
    rfl
  rw [fire]
  by_cases hmore : y.2.1 = nomore
  · obtain ⟨p'', front', hp'', hpassed⟩ := changed_spec hfaithful hlog' hstays
      (f := fun x => { x with id := deletedEventId }) (g := Core.deleted) (e := .ended te)
      (w := p'.world) (fun _ => ⟨rfl, rfl⟩) (fun _ => rfl) (fun _ => .inr rfl)
      htold (by simp [TimerEntry.Creates]) (fun a c => by rw [TimerEntry.tell]; split_ifs <;> rfl)
      (List.append_nil _).symm (hmore ▸ .ended x.id x.callbacks now hside)
    refine ⟨p'', front', ?_, hpassed⟩
    dsimp only
    rw [hp', Option.bind_some, if_neg (not_not.mpr hmore)]
    exact hp''
  · -- the event stays, with another time
    let later := env.spied.aeGetTime p'.world
    obtain ⟨p'', front', hp'', hpassed⟩ := changed_spec hfaithful hlog' hstays
      (f := fun x => x.at (aeAddMillisecondsToNow later.1 y.2.1))
      (g := fun c => { c with when := aeAddMillisecondsToNow later.1 y.2.1 })
      (e := .rescheduled te later.1 y.2.1) (w := later.2) (fun _ => ⟨rfl, rfl⟩) (fun _ => rfl)
      (fun _ => .inl rfl) htold (by simp [TimerEntry.Creates])
      (fun a c => by rw [TimerEntry.tell]; split_ifs <;> rfl) rfl
      (.rescheduled x.id x.callbacks now later.1 hmore hside)
    refine ⟨p'', front', ?_, hpassed⟩
    dsimp only
    rw [hp', Option.bind_some, if_pos hmore]
    exact hp''

theorem due_iff : x.due now = true ↔ Due x.when now := by
  rw [TimeEvent.due, decide_eq_true_eq]
  exact or_congr_right (and_congr_left' eq_comm)

/-- One turn visits one event, and the next one is the next of those before. -/
theorem timerTurn_spec {maxId : ℤ} (h : Faithful p (front ++ te :: back))
    (hmax : ∀ x, p.timers.mem te = some x → x.id ≤ maxId) :
    ∃ p' front', timerTurn env.spied maxId te p = some (p', back.head?) ∧
      Passed p p' [te] front' back := by
  obtain ⟨x, hx, -, hnext⟩ := h.recorded.wf.node
  rw [timerTurn, hx, Option.bind_some]
  by_cases hid : x.id = deletedEventId
  · obtain ⟨p', front', hp', hpassed⟩ := collect_spec env h hx hid
    exact ⟨p', front', by rw [if_pos hid, hp', ← hnext]; rfl, hpassed⟩
  · rw [if_neg hid, if_neg (hmax x hx).not_gt]
    dsimp only
    -- in both cases the node stays in the list
    have hstays : ∀ p' front', Passed p p' [te] front' (te :: back) →
        (p'.timers.mem te).map (fun x => (p', x.next)) = some (p', back.head?) ∧
          Passed p p' [te] (front' ++ [te]) back := by
      intro p' front' hpassed
      obtain ⟨y, hy, -, hnext'⟩ := hpassed.faithful.recorded.wf.node
      refine ⟨by rw [hy, ← hnext']; rfl, ?_, hpassed.log_eq,
        hpassed.stays.mono fun _ ha => List.mem_cons_of_mem te ha⟩
      rw [List.append_assoc]
      exact hpassed.faithful
    let now := env.spied.aeGetTime p.world
    have hcalls : now.2.2 = calls p.log ++ [.aeGetTime now.1] := by
      rw [← h.calls_eq]
      rfl
    by_cases hdue : x.due now.1
    · obtain ⟨p', front', hp', hpassed⟩ := fire_spec env (p := { p with world := now.2 })
        h.recorded hcalls hx hid (due_iff.mp hdue)
      obtain ⟨hturn, hpassed'⟩ :=
        hstays p' front' ⟨hpassed.faithful, hpassed.log_eq, hpassed.stays⟩
      refine ⟨p', _, ?_, hpassed'⟩
      rw [if_pos hdue, hp']
      exact hturn
    · have hnot : ¬ Due x.when now.1 := fun hcome => hdue (due_iff.mpr hcome)
      have htold := h.recorded.told_mem (by simp) hx
      have hnoted :
          Faithful ⟨p.timers, now.2, p.log ++ [.passed te now.1]⟩ (front ++ te :: back) := by
        refine ⟨h.recorded.note ⟨x.core, htold, hid, hnot⟩ (by simp [TimerEntry.Creates])
          fun _ _ => rfl, ?_⟩
        rw [calls_snoc]
        exact hcalls
      obtain ⟨hturn, hpassed⟩ := hstays _ front
        ⟨hnoted, ⟨_, rfl, (Turn.passed now.1).processesAll⟩, .refl⟩
      refine ⟨_, _, ?_, hpassed⟩
      rw [if_neg hdue]
      exact hturn

/-- The loop visits the events that are in the list from a node on. -/
theorem timerLoop_spec {maxId : ℤ} (hmaxId : deletedEventId ≤ maxId) {fuel : ℕ}
    (hfuel : back.length ≤ fuel) (h : Faithful p (front ++ back))
    (hmax : ∀ a ∈ back, ∀ x, p.timers.mem a = some x → x.id ≤ maxId) :
    ∃ p' front', timerLoop env.spied maxId fuel back.head? p = some p' ∧
      Passed p p' back front' [] := by
  induction back generalizing p front fuel with
  | nil =>
    exact ⟨p, front, by rw [List.head?_nil, timerLoop], h, ⟨[], by simp, processesAll_nil⟩, .refl⟩
  | cons te back ih =>
    obtain ⟨fuel, rfl⟩ := Nat.exists_eq_add_one_of_ne_zero (Nat.ne_zero_of_lt hfuel)
    obtain ⟨p', front', hp', hpassed⟩ := timerTurn_spec env h (hmax te List.mem_cons_self)
    have hmax' : ∀ a ∈ back, ∀ x, p'.timers.mem a = some x → x.id ≤ maxId := by
      intro a ha y hy
      obtain ⟨x, hx⟩ := h.recorded.wf.exists_mem (a := a) (by simp [ha])
      obtain ⟨z, hz, hid⟩ := hpassed.stays.node a ha x hx
      obtain rfl : z = y := Option.some.inj (hz.symm.trans hy)
      rcases hid with hid | hid
      · rw [hid]
        exact hmax a (List.mem_cons_of_mem te ha) x hx
      · rwa [hid]
    obtain ⟨p'', front'', hp'', hpassed'⟩ :=
      ih (Nat.le_of_succ_le_succ hfuel) hpassed.faithful hmax'
    obtain ⟨new, hlog, hnew⟩ := hpassed.log_eq
    obtain ⟨new', hlog', hnew'⟩ := hpassed'.log_eq
    refine ⟨p'', front'', ?_, hpassed'.faithful, ⟨new ++ new', ?_, hnew.append hnew'⟩,
      ⟨hpassed'.stays.lastTime_eq.trans hpassed.stays.lastTime_eq, by simp⟩⟩
    · rw [List.head?_cons, timerLoop, hp']
      exact hp''
    · rw [hlog', hlog, List.append_assoc]

/-! ### Runs -/

/-- A pass visits the events that were in the list at its start. -/
theorem processTimeEvents_spec (h : Faithful p l) (now : ℤ) :
    ∃ p' l' new, processTimeEvents env.spied now p = some p' ∧ Faithful p' l' ∧
      p'.timers.lastTime = now ∧ ProcessesAll l new ∧
      p'.log = p.log ++ (if now < p.timers.lastTime then [.skewed] else []) ++ new := by
  -- the times are reset if the clock was set back
  obtain ⟨q, hq, hfaithful, hqlog⟩ : ∃ q : Clockwork (ω × List EnvCall),
      (if now < p.timers.lastTime then
        (skewLoop p.timers.fresh p.timers.timeEventHead p.timers).map fun s =>
          ({ p with timers := s } : Clockwork (ω × List EnvCall)).note .skewed
      else some p) = some q ∧ Faithful q l ∧
      q.log = p.log ++ if now < p.timers.lastTime then [.skewed] else [] := by
    by_cases hskew : now < p.timers.lastTime
    · have hwf := h.recorded.wf
      obtain ⟨s, hs, hwf', hkept⟩ := skewLoop_spec (show p.timers.Wf ([] ++ l) from hwf)
        (hwf.linked.length_le hwf.lt_fresh)
      rw [← hwf.linked.head_eq] at hs
      refine ⟨⟨s, p.world, p.log ++ [.skewed]⟩, by rw [if_pos hskew, hs]; rfl, ⟨?_, ?_⟩,
        by rw [if_pos hskew]⟩
      · refine h.recorded.kept hkept hwf' trivial (by simp [TimerEntry.Creates]) fun a ha c => ?_
        rw [if_pos ha]
        rfl
      · rw [calls_snoc, ← h.calls_eq]
        exact (List.append_nil _).symm
    · exact ⟨p, if_neg hskew, h, by simp [hskew]⟩
  have hnonneg := hfaithful.recorded.wf.nextId_nonneg
  have hmax : ∀ a ∈ l, ∀ x, q.timers.mem a = some x → x.id ≤ q.timers.timeEventNextId - 1 := by
    intro a ha x hx
    have hrange := hfaithful.recorded.wf.id_range a ha x hx
    rw [deletedEventId] at hrange
    omega
  have hmaxId : deletedEventId ≤ q.timers.timeEventNextId - 1 := by
    rw [deletedEventId]
    omega
  have hlast : Faithful { q with timers := { q.timers with lastTime := now } } ([] ++ l) :=
    ⟨hfaithful.recorded.lastTime now, hfaithful.calls_eq⟩
  have hlinked := hlast.recorded.wf.linked
  obtain ⟨p', front', hp', hpassed⟩ := timerLoop_spec env hmaxId
    (hlinked.length_le hlast.recorded.wf.lt_fresh) hlast hmax
  obtain ⟨new, hlog, hnew⟩ := hpassed.log_eq
  refine ⟨p', front' ++ [], new, ?_, hpassed.faithful, hpassed.stays.lastTime_eq, hnew, ?_⟩
  · rw [← hlinked.head_eq] at hp'
    rw [processTimeEvents, hq, Option.bind_some]
    exact hp'
  · rw [hlog, hqlog]

/-- What was deleted before a pass is collected at its end: an event that is dead is neither
passed over nor fired. -/
theorem collected_of_dead {mid new : List TimerEntry} (hlists : Lists log l)
    (hstory : Story (log ++ mid ++ new)) (hnew : ProcessesAll l new) (hdead : Dead log te) :
    ∃ c, .collected te c ∈ log ++ mid ++ new := by
  by_cases hmem : te ∈ l
  · obtain ⟨turns, rfl, hturns⟩ := hnew
    obtain ⟨turn, hturn, hentries⟩ : ∃ turn ∈ turns, Turn te turn := by
      obtain ⟨i, hi, rfl⟩ := List.mem_iff_getElem.mp hmem
      have hi' : i < turns.length := hturns.length_eq ▸ hi
      exact ⟨turns[i], List.getElem_mem hi', hturns.get hi hi'⟩
    obtain ⟨before, after, rfl⟩ := List.append_of_mem hturn
    -- whatever comes first in the turn comes when the event is dead
    have hfirst : ∀ e rest, turn = e :: rest → Legal (log ++ (mid ++ before.flatten)) e ∧
        Dead (log ++ (mid ++ before.flatten)) te := by
      rintro e rest rfl
      have hsplit : log ++ mid ++ (before ++ (e :: rest) :: after).flatten =
          log ++ (mid ++ before.flatten) ++ e :: (rest ++ after.flatten) := by simp
      rw [hsplit] at hstory
      exact ⟨hstory _ e _ rfl, hdead.append hstory.of_append⟩
    have hcollects : ∀ c rest, turn = .collected te c :: rest →
        ∃ c, .collected te c ∈ log ++ mid ++ (before ++ turn :: after).flatten := by
      rintro c rest rfl
      exact ⟨c, by simp⟩
    cases hentries with
    | collected c _ => exact hcollects c _ rfl
    | finalized _ _ => exact hcollects _ _ rfl
    | passed now =>
      obtain ⟨⟨c, hc, hlive, -⟩, hdead'⟩ := hfirst _ _ rfl
      exact absurd (hdead'.deleted c hc) hlive
    | rescheduled id c now _ _ _ | ended id c now _ =>
      obtain ⟨⟨t, ht, hlive, -⟩, hdead'⟩ := hfirst _ _ rfl
      exact absurd (hdead'.deleted _ ht) hlive
  · obtain ⟨c, hc⟩ := collected_of_told_none hdead.created
      (not_not.mp ((hlists.2 te).not.mp hmem))
    exact ⟨c, List.mem_append_left _ (List.mem_append_left _ hc)⟩

theorem timerStep_spec {lastTime : ℤ} {steps : List TimerStep} (h : Faithful p l)
    (hlog : Chronicle lastTime steps p.timers.lastTime p.log) (step : TimerStep) :
    ∃ p' l', timerStep env.spied p step = some p' ∧ Faithful p' l' ∧
      Chronicle lastTime (steps ++ [step]) p'.timers.lastTime p'.log := by
  rcases step with c | now
  · obtain ⟨p', l', hp', hfaithful, -, ⟨side, hside, hperforms⟩, hstays⟩ :=
      timerChange_grows env h c
    obtain ⟨e, rfl, he⟩ : ∃ e, side = [e] ∧ e.request = some c :=
      List.map_eq_singleton_iff.mp hperforms
    refine ⟨p', l', hp', hfaithful, ?_⟩
    rw [hside, hstays.lastTime_eq]
    exact hlog.change he
  · obtain ⟨p', l', new, hp', hfaithful, rfl, hnew, hlog'⟩ := processTimeEvents_spec env h now
    refine ⟨p', l', hp', hfaithful, ?_⟩
    rw [hlog']
    exact hlog.pass _ h.recorded.lists hnew

theorem timerRun_spec (world : ω) (lastTime : ℤ) (steps : List TimerStep) :
    ∃ p l, timerRun env.spied ⟨Timers.create lastTime, (world, []), []⟩ steps = some p ∧
      Faithful p l ∧ Chronicle lastTime steps p.timers.lastTime p.log := by
  induction steps using List.reverseRecOn with
  | nil => exact ⟨_, [], rfl, ⟨.create lastTime, rfl⟩, .nil⟩
  | append_singleton steps step ih =>
    obtain ⟨p, l, hp, hfaithful, hlog⟩ := ih
    obtain ⟨p', l', hp', hfaithful', hlog'⟩ := timerStep_spec env hfaithful hlog step
    refine ⟨p', l', ?_, hfaithful', hlog'⟩
    rw [timerRun] at hp ⊢
    rw [List.foldlM_append, hp]
    simpa using hp'

/-- After any calls and passes the list is well formed, and it is what the log tells; the log
has the calls that were asked for and, for each pass, one turn for each event that there was
at its start, and the finalizers that it has are those of the events that were collected.  The
clock and the callbacks were called as the log says, with the ids and data of the events.

At the end of the next pass each event that was deleted before it, or that returned
`AE_NOMORE`, is not in the list and was collected once.  The callback of such an event is
never called again. -/
theorem time_events_as_registered (world : ω) (lastTime : ℤ) (steps : List TimerStep) :
    ∃ p l, timerRun env.spied ⟨Timers.create lastTime, (world, []), []⟩ steps = some p ∧
      Recorded p.timers p.log l ∧ p.world.2 = calls p.log ∧
      Chronicle lastTime steps p.timers.lastTime p.log ∧
      finalizations p.log = finalizers p.log ∧
      (∀ before e after te id c now changes ret, p.log = before ++ e :: after → e.Kills te →
        .fired te id c now changes ret ∉ after) ∧
      ∀ now, ∃ p' l' new, processTimeEvents env.spied now p = some p' ∧
        Recorded p'.timers p'.log l' ∧ p'.world.2 = calls p'.log ∧ ProcessesAll l new ∧
        p'.log = p.log ++ (if now < p.timers.lastTime then [.skewed] else []) ++ new ∧
        ∀ e ∈ p.log, ∀ te, e.Kills te → te ∉ l' ∧
          ∃ before c after, p'.log = before ++ .collected te c :: after ∧
            ∀ c', .collected te c' ∉ before ++ after := by
  obtain ⟨p, l, hp, hfaithful, hchronicle⟩ := timerRun_spec env world lastTime steps
  refine ⟨p, l, hp, hfaithful.recorded, hfaithful.calls_eq, hchronicle,
    hchronicle.finalizations_eq, ?_, fun now => ?_⟩
  · intro before e after te id c now changes ret hlog hkills
    exact (hlog ▸ hfaithful.recorded.story).not_fired hkills id c now changes ret
  · obtain ⟨p', l', new, hp', hfaithful', -, hnew, hlog⟩ := processTimeEvents_spec env hfaithful now
    refine ⟨p', l', new, hp', hfaithful'.recorded, hfaithful'.calls_eq, hnew, hlog,
      fun e he te hkills => ?_⟩
    have hstory := hfaithful'.recorded.story
    obtain ⟨c, hc⟩ := collected_of_dead hfaithful.recorded.lists (hlog ▸ hstory) hnew
      (dead_of_mem hfaithful.recorded.story he hkills)
    rw [← hlog] at hc
    obtain ⟨before, after, hsplit⟩ := List.append_of_mem hc
    rw [hsplit] at hstory
    refine ⟨?_, before, c, after, hsplit, hstory.collected_once⟩
    rw [hfaithful'.recorded.lists.2, not_not, hsplit]
    exact told_collected hstory

end

end Ae
