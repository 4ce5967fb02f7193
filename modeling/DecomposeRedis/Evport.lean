/-
The event port backend (ae_evport.c).

A descriptor with events is to be represented once, by its association with the port or
by an entry of the table of pending descriptors, into which `aeApiPoll` puts those it
returns (`Represented`).  `aeApiAddEvent` and `aeApiPoll` keep this.  `aeApiDelEvent`
takes the mask of the table for the one that is left, but ae.c calls it before it writes
the table: an association is never taken back (`port_keeps_deleted`).
`evport_represents` says that everything else is right.
-/
import DecomposeRedis.EventTableSpec

namespace Ae

open Function

namespace Evport

/-- The associations with the port, with the mask in `portev_user`, from which also the
poll events were made, and the first `npending` entries of `pending_fds` and
`pending_masks`; `none` is for the descriptor -1. -/
structure State where
  port : ℕ → Option Mask
  pending : List (Option ℕ × Mask)

/-- `aeApiLookupPending` -/
def aeApiLookupPending (s : State) (fd : ℕ) : Option ℕ := s.pending.findIdx? fun x => x.1 = some fd

/-- `aeApiAddEvent` -/
def aeApiAddEvent (s : State) (masks : ℕ → Mask) (fd : ℕ) (mask : Mask) (fails : Bool) :
    Option (State × Bool) :=
  let fullmask := mask.or (masks fd)
  match aeApiLookupPending s fd with
  | some pfd =>
    some ({ s with pending := s.pending.modify pfd fun x => (x.1, x.2.or fullmask) }, true)
  | none =>
    if fails then some (s, false)
    else some ({ s with port := update s.port fd (some fullmask) }, true)

/-- An entry of the pending table from which events are deleted. -/
def dropPending (mask : Mask) (x : Option ℕ × Mask) : Option ℕ × Mask :=
  if x.2.diff mask = .none then (none, x.2.diff mask) else (x.1, x.2.diff mask)

/-- `aeApiDelEvent`.  It is `none` where `port_dissociate` finds no association; a
`port_associate` that fails would end the process too, and is left out. -/
def aeApiDelEvent (s : State) (masks : ℕ → Mask) (fd : ℕ) (mask : Mask) : Option State :=
  match aeApiLookupPending s fd with
  | some pfd => some { s with pending := s.pending.modify pfd (dropPending mask) }
  | none =>
    if masks fd = .none then
      match s.port fd with
      | none => none
      | some _ => some { s with port := update s.port fd none }
    else some { s with port := update s.port fd (some (masks fd)) }

/-- ae_evport.c -/
def api : Api State where
  aeApiAddEvent := aeApiAddEvent
  aeApiDelEvent := aeApiDelEvent
  aeApiResize := fun s _ => some s

/-- `aeApiCreate` -/
def aeApiCreate : State := ⟨fun _ => none, []⟩

/-- The first loop of `aeApiPoll` associates the pending descriptors again. -/
def reassociate (port : ℕ → Option Mask) (pending : List (Option ℕ × Mask)) : ℕ → Option Mask :=
  pending.foldl (fun port x =>
    match x.1 with
    | none => port
    | some fd => update port fd (some x.2)) port

/-- An event that `port_getn` returns: the descriptor, and whether `portev_events` has
`POLLIN` and `POLLOUT`. -/
structure PortEvent where
  fd : ℕ
  pollin : Bool
  pollout : Bool

/-- What `port_getn` can return: different descriptors that are associated, at most
`MAX_EVENT_BATCHSZ` of them. -/
def Reportable (port : ℕ → Option Mask) (reported : List PortEvent) : Prop :=
  (reported.map PortEvent.fd).Nodup ∧ (∀ e ∈ reported, (port e.fd).isSome = true) ∧
    reported.length ≤ 512

instance (port : ℕ → Option Mask) (reported : List PortEvent) :
    Decidable (Reportable port reported) :=
  inferInstanceAs (Decidable (_ ∧ _ ∧ _))

/-- `aeApiPoll`, where `port_getn` returns `reported`, and the fired events.  What is
returned is not associated any more. -/
def aeApiPoll (s : State) (reported : List PortEvent) : Option (State × List (ℕ × Mask)) :=
  let port := reassociate s.port s.pending
  if Reportable port reported then
    some ({ port := fun fd => if fd ∈ reported.map PortEvent.fd then none else port fd
            pending := reported.map fun e => (some e.fd, (port e.fd).getD .none) },
      reported.map fun e => (e.fd, ⟨e.pollin, e.pollout, false⟩))
  else none

/-- The masks of the entries for a descriptor in the pending table. -/
def pendingOf (pending : List (Option ℕ × Mask)) (fd : ℕ) : List Mask :=
  pending.filterMap fun x => if x.1 = some fd then some x.2 else none

/-- The masks by which a descriptor is represented. -/
def State.masksOf (s : State) (fd : ℕ) : List Mask := (s.port fd).toList ++ pendingOf s.pending fd

/-- A descriptor with events is represented once, by its mask, and one without is not. -/
def Represented (s : State) (fd : ℕ) (mask : Mask) : Prop :=
  s.masksOf fd = if mask = .none then [] else [mask]

/-! ### The pending table -/

section Pending

variable {s : State} {fd i : ℕ} {mask : Mask} {pending : List (Option ℕ × Mask)}

@[simp] theorem pendingOf_nil : pendingOf [] fd = [] := rfl

theorem pendingOf_cons (x : Option ℕ × Mask) (pending : List (Option ℕ × Mask)) :
    pendingOf (x :: pending) fd = (if x.1 = some fd then [x.2] else []) ++
      pendingOf pending fd := by
  rw [pendingOf, List.filterMap_cons]
  split
  · rename_i h
    split at h
    · cases h
    · rename_i hne
      rw [if_neg hne]
      rfl
  · rename_i b h
    split at h
    · rename_i heq
      rw [if_pos heq, ← Option.some.inj h]
      rfl
    · cases h

theorem pendingOf_append (front rest : List (Option ℕ × Mask)) :
    pendingOf (front ++ rest) fd = pendingOf front fd ++ pendingOf rest fd :=
  List.filterMap_append ..

theorem pendingOf_eq_nil (h : ∀ x ∈ pending, x.1 ≠ some fd) :
    pendingOf pending fd = [] :=
  List.filterMap_eq_nil_iff.mpr fun x hx => if_neg (h x hx)

/-- A descriptor that is not pending has no entry. -/
theorem pendingOf_of_lookup (h : aeApiLookupPending s fd = none) : pendingOf s.pending fd = [] := by
  rw [aeApiLookupPending, List.findIdx?_eq_none_iff] at h
  exact pendingOf_eq_nil fun x hx => by simpa using h x hx

/-- The entry that is found is the first one of the descriptor. -/
theorem lookup_split
    (h : (pending.findIdx? fun x => x.1 = some fd) = some i) :
    ∃ front mask rest, pending = front ++ (some fd, mask) :: rest ∧ front.length = i
      ∧ ∀ x ∈ front, x.1 ≠ some fd := by
  obtain ⟨hi, hx, hfront⟩ := List.findIdx?_eq_some_iff_getElem.mp h
  have hx : pending[i].1 = some fd := by simpa using hx
  refine ⟨pending.take i, pending[i].2, pending.drop (i + 1), ?_, List.length_take_of_le hi.le,
    fun x hmem => ?_⟩
  · rw [← hx, ← List.drop_eq_getElem_cons hi, List.take_append_drop]
  · obtain ⟨j, hj, rfl⟩ := List.mem_take_iff_getElem.mp hmem
    have hj' : j < i := by omega
    simpa using hfront j hj'

/-- The entry of a descriptor is written. -/
theorem masksOf_modify (h : aeApiLookupPending s fd = some i) (hs : s.masksOf fd = [mask])
    (f : Option ℕ × Mask → Option ℕ × Mask)
    (hf : (f (some fd, mask)).1 = some fd ∨ (f (some fd, mask)).1 = none) :
    s.port fd = none
    ∧ ({ s with pending := s.pending.modify i f } : State).masksOf fd
      = (if (f (some fd, mask)).1 = some fd then [(f (some fd, mask)).2] else [])
    ∧ ∀ d, d ≠ fd → ({ s with pending := s.pending.modify i f } : State).masksOf d
      = s.masksOf d := by
  obtain ⟨front, m, rest, hsplit, hlen, hfront⟩ := lookup_split h
  have hmod : s.pending.modify i f = front ++ f (some fd, m) :: rest := by
    rw [hsplit, ← hlen, List.modify_eq_take_drop]
    simp
  have hself : (s.port fd).toList ++ m :: pendingOf rest fd = [mask] := by
    rw [← hs, State.masksOf, hsplit, pendingOf_append, pendingOf_eq_nil hfront, pendingOf_cons]
    simp
  -- it is the only one, and there is no association
  obtain ⟨hport, rfl, hrest⟩ : s.port fd = none ∧ m = mask ∧ pendingOf rest fd = [] := by
    rcases hp : s.port fd with _ | a
    · rw [hp] at hself
      simpa using hself
    · rw [hp] at hself
      simp at hself
  refine ⟨hport, ?_, fun d hd => ?_⟩
  · show (s.port fd).toList ++ pendingOf (s.pending.modify i f) fd = _
    rw [hmod, pendingOf_append, pendingOf_eq_nil hfront, pendingOf_cons, hrest, hport]
    simp
  · have hne : (f (some fd, m)).1 ≠ some d := by
      rcases hf with hf | hf <;> rw [hf]
      · exact fun heq => hd (Option.some.inj heq).symm
      · nofun
    show (s.port d).toList ++ pendingOf (s.pending.modify i f) d = (s.port d).toList ++
        pendingOf s.pending d
    rw [hmod, hsplit, pendingOf_append, pendingOf_append, pendingOf_cons,
      pendingOf_cons, if_neg hne, if_neg (fun heq => hd (Option.some.inj heq).symm)]

/-- The association of a descriptor that is not pending is written. -/
theorem masksOf_update (h : aeApiLookupPending s fd = none) (a : Option Mask) :
    ({ s with port := update s.port fd a } : State).masksOf fd = a.toList
    ∧ ∀ d, d ≠ fd → ({ s with port := update s.port fd a } : State).masksOf d = s.masksOf d := by
  refine ⟨?_, fun d hd => ?_⟩
  · show (update s.port fd a fd).toList ++ pendingOf s.pending fd = _
    rw [update_self, pendingOf_of_lookup h, List.append_nil]
  · show (update s.port fd a d).toList ++ pendingOf s.pending d = _
    rw [update_of_ne hd, State.masksOf]

/-- A pending descriptor has events. -/
theorem ne_none_of_lookup (h : aeApiLookupPending s fd = some i) (hs : Represented s fd mask) :
    mask ≠ .none := by
  rintro rfl
  obtain ⟨front, m, rest, hsplit, -⟩ := lookup_split h
  rw [Represented, if_pos rfl, State.masksOf, hsplit, pendingOf_append, pendingOf_cons] at hs
  simp at hs

end Pending

/-! ### The calls -/

section Calls

variable {l : EventLoop State} {fd : ℕ} {mask : Mask}

theorem addsWell (h : Agrees Represented l) (hmask : mask ≠ .none) (fails : Bool) :
    AddsWell api Represented l fd mask fails := by
  have hreg := h.registered fd
  have hfull : mask.or (l.mask fd) = (l.mask fd).or mask := Mask.or_comm
  have hor : (l.mask fd).or mask ≠ .none := Mask.or_ne_none hmask
  rcases hpfd : aeApiLookupPending l.apidata fd with _ | pfd
  · cases fails with
    | true =>
      refine ⟨l.apidata, false, ?_, fun _ => rfl, nofun⟩
      simp only [api, aeApiAddEvent, hpfd]
      rfl
    | false =>
      obtain ⟨hself, hothers⟩ := masksOf_update hpfd (some (mask.or (l.mask fd)))
      refine ⟨_, true, ?_, nofun, fun _ => ⟨?_, fun d hd => (hothers d hd).trans (h.registered d)⟩⟩
      · simp only [api, aeApiAddEvent, hpfd]
        rfl
      · rw [Represented, hself, if_neg hor, hfull]
        rfl
  · have hne := ne_none_of_lookup hpfd hreg
    rw [Represented, if_neg hne] at hreg
    obtain ⟨-, hself, hothers⟩ := masksOf_modify hpfd hreg (fun x => (x.1,
      x.2.or (mask.or (l.mask fd)))) (.inl rfl)
    have hsame : (l.mask fd).or (mask.or (l.mask fd)) = (l.mask fd).or mask := by
      rw [hfull]
      simp only [Mask.or, ← Bool.or_assoc, Bool.or_self]
    refine ⟨_, true, ?_, nofun, fun _ => ⟨?_, fun d hd => (hothers d hd).trans (h.registered d)⟩⟩
    · simp only [api, aeApiAddEvent, hpfd]
    · rw [Represented, hself, if_pos rfl, if_neg hor, hsame]

/-- A deletion is safe if the descriptor is pending, or if none of its events are
deleted. -/
def DelSafe (l : EventLoop State) (fd : ℕ) (mask : Mask) : Prop :=
  fd < l.setsize → l.mask fd ≠ .none →
    (aeApiLookupPending l.apidata fd).isSome = true ∨ (l.mask fd).diff mask.withBarrier = l.mask fd

theorem delsWell (h : Agrees Represented l) (hfd : l.mask fd ≠ .none)
    (hsafe : (aeApiLookupPending l.apidata fd).isSome = true ∨ (l.mask fd).diff mask = l.mask fd) :
    DelsWell api Represented l fd mask := by
  have hreg := h.registered fd
  rcases hpfd : aeApiLookupPending l.apidata fd with _ | pfd
  · rw [hpfd] at hsafe
    have hsame : (l.mask fd).diff mask = l.mask fd := hsafe.resolve_left nofun
    obtain ⟨hself, hothers⟩ := masksOf_update hpfd (some (l.mask fd))
    refine ⟨_, ?_, ?_, fun d hd => (hothers d hd).trans (h.registered d)⟩
    · simp only [api, aeApiDelEvent, hpfd, if_neg hfd]
    · rw [hsame, Represented, hself, if_neg hfd]
      rfl
  · rw [Represented, if_neg hfd] at hreg
    have hentry : (dropPending mask (some fd, l.mask fd)).1 = some fd
        ∨ (dropPending mask (some fd, l.mask fd)).1 = none := by
      rw [dropPending]
      split
      · exact .inr rfl
      · exact .inl rfl
    obtain ⟨-, hself, hothers⟩ := masksOf_modify hpfd hreg (dropPending mask) hentry
    refine ⟨_, ?_, ?_, fun d hd => (hothers d hd).trans (h.registered d)⟩
    · simp only [api, aeApiDelEvent, hpfd]
    · rw [Represented, hself]
      by_cases hnone : (l.mask fd).diff mask = .none
      · have hdrop : dropPending mask (some fd, l.mask fd) = (none, (l.mask fd).diff mask) :=
          if_pos hnone
        rw [hdrop, if_pos hnone]
        rfl
      · have hdrop : dropPending mask (some fd, l.mask fd) = (some fd, (l.mask fd).diff mask) :=
          if_neg hnone
        rw [hdrop, if_pos rfl, if_neg hnone]

/-- An association stays what it was. -/
theorem not_delsWell (hpfd : aeApiLookupPending l.apidata fd = none) (hfd : l.mask fd ≠ .none)
    (hchange : (l.mask fd).diff mask ≠ l.mask fd) : ¬ DelsWell api Represented l fd mask := by
  rintro ⟨k, hrun, hself, -⟩
  obtain ⟨hmasks, -⟩ := masksOf_update hpfd (some (l.mask fd))
  have hk : ({ l.apidata with port := update l.apidata.port fd (some (l.mask fd)) } : State)
    = k := by
    simp only [api, aeApiDelEvent, hpfd, if_neg hfd] at hrun
    exact Option.some.inj hrun
  rw [Represented, ← hk, hmasks] at hself
  split at hself
  · cases hself
  · exact hchange (List.singleton_inj.mp hself).symm

/-- **A deletion** leaves the descriptor represented exactly if it is safe. -/
theorem delete_agrees_iff (h : Agrees Represented l) :
    (∃ l', aeDeleteFileEvent api l fd mask = some l' ∧ Agrees Represented l') ↔
      DelSafe l fd mask := by
  constructor
  · rintro ⟨l', hrun, hl'⟩ hsize hfd
    by_contra hunsafe
    rw [not_or, Bool.not_eq_true, Option.isSome_eq_false_iff, Option.isNone_iff_eq_none] at hunsafe
    refine not_delsWell hunsafe.1 hfd hunsafe.2 ?_
    rw [aeDeleteFileEvent, if_neg (Nat.not_le.mpr hsize), if_neg hfd] at hrun
    rcases hk : api.aeApiDelEvent l.apidata l.mask fd mask.withBarrier with _ | k
    · rw [hk] at hrun
      cases hrun
    · rw [hk] at hrun
      obtain rfl := Option.some.inj hrun
      refine ⟨k, hk, ?_, fun d hd => ?_⟩
      · have hself : Represented k fd (update l.events fd _ fd).mask := hl'.registered fd
        rwa [update_self] at hself
      · have hother : Represented k d (update l.events fd _ d).mask := hl'.registered d
        rwa [update_of_ne hd] at hother
  · intro hsafe
    have hdel : fd < l.setsize → l.mask fd ≠ .none →
        DelsWell api Represented l fd mask.withBarrier :=
      fun hsize hfd => delsWell h hfd (hsafe hsize hfd)
    obtain ⟨l', hrun, hl', -⟩ := aeDeleteFileEvent_agrees h hdel
    exact ⟨l', hrun, hl'⟩

end Calls

/-! ### Polling -/

section Poll

variable {s : State} {fd : ℕ} {reported : List PortEvent}

/-- The last entry of a descriptor is what it is associated with. -/
theorem reassociate_eq (port : ℕ → Option Mask) (pending : List (Option ℕ × Mask)) (fd : ℕ) :
    reassociate port pending fd = ((port fd).toList ++ pendingOf pending fd).getLast? := by
  induction pending generalizing port with
  | nil => cases h : port fd <;> simp [reassociate, h]
  | cons x pending ih =>
    rw [reassociate, List.foldl_cons, pendingOf_cons]
    rcases hx : x.1 with _ | d
    · refine (ih port).trans ?_
      simp
    · refine (ih (update port d (some x.2))).trans ?_
      rcases eq_or_ne d fd with rfl | hne
      · rw [update_self, if_pos rfl, List.getLast?_append, List.getLast?_append,
          List.getLast?_append]
        cases (pendingOf pending d).getLast? <;> simp
      · rw [update_of_ne hne.symm, if_neg (fun heq => hne (Option.some.inj heq)), List.nil_append]

theorem pendingOf_reported {port : ℕ → Option Mask}
    (hn : (reported.map PortEvent.fd).Nodup) :
    pendingOf (reported.map fun e => (some e.fd, (port e.fd).getD .none)) fd
      = if fd ∈ reported.map PortEvent.fd then [(port fd).getD .none] else [] := by
  induction reported with
  | nil => rfl
  | cons e reported ih =>
    rw [List.map_cons, List.nodup_cons] at hn
    rw [List.map_cons, pendingOf_cons, ih hn.2, List.map_cons]
    rcases eq_or_ne e.fd fd with rfl | hne
    · rw [if_pos rfl, if_neg hn.1, if_pos List.mem_cons_self]
      rfl
    · rw [if_neg (fun heq => hne (Option.some.inj heq)), List.nil_append]
      simp only [List.mem_cons, hne.symm, false_or]

/-- Polling moves the descriptors that are returned into the pending table. -/
theorem masksOf_aeApiPoll {s' : State} {fired : List (ℕ × Mask)}
    (hs : (s.masksOf fd).length ≤ 1) (h : aeApiPoll s reported = some (s', fired)) :
    s'.masksOf fd = s.masksOf fd := by
  rw [aeApiPoll] at h
  split at h
  · rename_i hrep
    obtain ⟨rfl, -⟩ := Prod.mk.inj (Option.some.inj h)
    have hport : (reassociate s.port s.pending fd).toList = s.masksOf fd := by
      rw [reassociate_eq]
      show (s.masksOf fd).getLast?.toList = _
      rcases hm : s.masksOf fd with _ | ⟨m, _ | ⟨m', rest⟩⟩
      · rfl
      · rfl
      · rw [hm] at hs
        simp at hs
    show (ite _ _ _ : Option Mask).toList ++ pendingOf _ fd = _
    rw [pendingOf_reported hrep.1, ← hport]
    split
    · rename_i hmem
      obtain ⟨e, he, rfl⟩ := List.mem_map.mp hmem
      obtain ⟨m, hm⟩ := Option.isSome_iff_exists.mp (hrep.2.1 e he)
      rw [hm]
      rfl
    · rw [List.append_nil]
  · cases h

theorem represented_length {mask : Mask} (h : Represented s fd mask) :
    (s.masksOf fd).length ≤ 1 := by
  rw [Represented] at h
  rw [h]
  split <;> simp

end Poll

end Evport

/-! ### Runs -/

/-- What ae.c does with event ports. -/
inductive PortCall where
  | call (c : Call)
  | aeApiPoll (reported : List Evport.PortEvent)

/-- The loop after a call, and the events that were fired. -/
def portCall (l : EventLoop Evport.State) :
    PortCall → Option (EventLoop Evport.State × List (ℕ × Mask))
  | .call c => (call Evport.api l c).map fun x => (x.1, [])
  | .aeApiPoll reported =>
    (Evport.aeApiPoll l.apidata reported).map fun x => ({ l with apidata := x.1 }, x.2)

/-- The calls that keep the representation, and what `port_getn` can return. -/
def PortCall.Safe (l : EventLoop Evport.State) : PortCall → Prop
  | .call (.aeDeleteFileEvent fd mask) => Evport.DelSafe l fd mask
  | .call _ => True
  | .aeApiPoll reported =>
    Evport.Reportable (Evport.reassociate l.apidata.port l.apidata.pending) reported

instance (l : EventLoop Evport.State) : (c : PortCall) → Decidable (c.Safe l)
  | .call (.aeDeleteFileEvent _ _) => inferInstanceAs (Decidable (_ → _ → _ ∨ _))
  | .call (.aeCreateFileEvent _ _ _ _ _) => inferInstanceAs (Decidable True)
  | .call (.aeResizeSetSize _) => inferInstanceAs (Decidable True)
  | .aeApiPoll _ => inferInstanceAs (Decidable (Evport.Reportable _ _))

theorem portCall_agrees {l : EventLoop Evport.State} (h : Agrees Evport.Represented l)
    {c : PortCall} (hsafe : c.Safe l) :
    ∃ l' fired, portCall l c = some (l', fired) ∧ Agrees Evport.Represented l' := by
  rcases c with (⟨fd, mask, proc, clientData, fails⟩ | ⟨fd, mask⟩ | setsize) | reported
  · have hadd : fd < l.setsize → AddsWell Evport.api Evport.Represented l fd mask.1 fails :=
      fun _ => Evport.addsWell h mask.2 fails
    obtain ⟨l', ok, hrun, hl', -⟩ := aeCreateFileEvent_agrees h mask.2 proc clientData hadd
    refine ⟨l', [], ?_, hl'⟩
    show (aeCreateFileEvent Evport.api l fd mask.1 proc clientData fails).map _ = _
    rw [hrun]
    rfl
  · obtain ⟨l', hrun, hl'⟩ := (Evport.delete_agrees_iff h).mpr hsafe
    refine ⟨l', [], ?_, hl'⟩
    show ((aeDeleteFileEvent Evport.api l fd mask).map _).map _ = _
    rw [hrun]
    rfl
  · have hresize : ∀ n k, Evport.api.aeApiResize l.apidata n = some k →
        ∀ d m, Evport.Represented l.apidata d m → Evport.Represented k d m := by
      intro n k hk
      obtain rfl : l.apidata = k := Option.some.inj hk
      exact fun _ _ => id
    exact ⟨_, [], rfl, (aeResizeSetSize_agrees h setsize hresize).1⟩
  · obtain ⟨s, fired, hrun⟩ : ∃ s fired, Evport.aeApiPoll l.apidata reported = some (s, fired) :=
      ⟨_, _, if_pos hsafe⟩
    refine ⟨{ l with apidata := s }, fired, ?_, ⟨fun fd => ?_, h.greatest, h.lt_setsize⟩⟩
    · rw [portCall, hrun]
      rfl
    have hreg := h.registered fd
    exact (Evport.masksOf_aeApiPoll (Evport.represented_length hreg) hrun).trans hreg

/-- **The event port backend.**  In a run whose deletions are safe, every descriptor with
events is represented once, with its mask, and one without events is neither associated
nor pending, so `port_getn` does not return it; and there a deletion keeps this exactly
if it is safe. -/
theorem evport_represents (setsize : ℕ) (calls : List PortCall)
    (h : Runs.Meets portCall (fun l c => c.Safe l)
      (aeCreateEventLoop setsize Evport.aeApiCreate) calls) :
    ∃ l fired, Runs.run portCall (aeCreateEventLoop setsize Evport.aeApiCreate) calls
      = some (l, fired)
      ∧ (∀ fd, (l.mask fd ≠ .none → (l.apidata.port fd = some (l.mask fd)
            ∧ Evport.pendingOf l.apidata.pending fd = [])
          ∨ (l.apidata.port fd = none ∧ Evport.pendingOf l.apidata.pending fd = [l.mask fd]))
        ∧ (l.mask fd = .none → l.apidata.port fd = none ∧
          Evport.pendingOf l.apidata.pending fd = []))
      ∧ ∀ fd mask, (∃ l', aeDeleteFileEvent Evport.api l fd mask = some l' ∧
        Agrees Evport.Represented l')
          ↔ Evport.DelSafe l fd mask := by
  have hstart : Agrees Evport.Represented (aeCreateEventLoop setsize Evport.aeApiCreate) :=
    agrees_create (fun _ => rfl) setsize
  obtain ⟨l, fired, hrun, hl⟩ :=
    Runs.run_invariant (fun l c hl hc => portCall_agrees hl hc) hstart h
  refine ⟨l, fired, hrun, fun fd => ⟨fun hmask => ?_, fun hmask => ?_⟩, fun fd mask =>
    Evport.delete_agrees_iff hl⟩
  · have hreg : (l.apidata.port fd).toList ++ Evport.pendingOf l.apidata.pending fd = [l.mask fd] :=
      (hl.registered fd).trans (if_neg hmask)
    rcases hport : l.apidata.port fd with _ | m
    · rw [hport] at hreg
      exact .inr ⟨rfl, hreg⟩
    · rw [hport] at hreg
      obtain ⟨rfl, hnil⟩ := List.cons_eq_cons.mp hreg
      exact .inl ⟨rfl, hnil⟩
  · have hreg : (l.apidata.port fd).toList ++ Evport.pendingOf l.apidata.pending fd = [] :=
      (hl.registered fd).trans (if_pos hmask)
    obtain ⟨hport, hpending⟩ := List.append_eq_nil_iff.mp hreg
    exact ⟨by simpa using hport, hpending⟩

/-- A descriptor is added, returned by the port and then deleted. -/
def deletedPending : List PortCall :=
  [.call (.read 5), .aeApiPoll [⟨5, true, false⟩], .call (.aeDeleteFileEvent 5 ⟨true, true, false⟩)]

theorem evport_represents_deleted_pending :
    ∃ l fired, Runs.run portCall (aeCreateEventLoop 64 Evport.aeApiCreate) deletedPending
      = some (l, fired)
      ∧ l.mask 5 = .none ∧ l.apidata.port 5 = none ∧ Evport.pendingOf l.apidata.pending 5 = [] := by
  obtain ⟨l, fired, hrun, hfds, -⟩ := evport_represents 64 deletedPending (by decide +kernel)
  have hmask : (Runs.run portCall (aeCreateEventLoop 64 Evport.aeApiCreate) deletedPending).map
      (fun x => x.1.mask 5) = some .none := by decide +kernel
  rw [hrun] at hmask
  have hmask : l.mask 5 = .none := Option.some.inj hmask
  exact ⟨l, fired, hrun, hmask, (hfds 5).2 hmask⟩

/-- A descriptor from which all events were deleted stays associated, and is returned by
the port. -/
theorem port_keeps_deleted :
    ((Runs.run portCall (aeCreateEventLoop 64 Evport.aeApiCreate)
        [.call (.read 5), .call (.aeDeleteFileEvent 5 ⟨true, true, false⟩)]).map
          fun x => (x.1.mask 5, x.1.apidata.port 5))
      = some (.none, some ⟨true, false, false⟩)
    ∧ ((Runs.run portCall (aeCreateEventLoop 64 Evport.aeApiCreate)
        [.call (.read 5), .call (.aeDeleteFileEvent 5 ⟨true, true, false⟩),
          .aeApiPoll [⟨5, true, false⟩]]).map
          Prod.snd)
      = some [[], [], [(5, ⟨true, false, false⟩)]] := by
  decide +kernel

end Ae
