/-
The table of file events and the kernel agree.

`Agrees reg l` says that every descriptor is registered with the API as its mask in the
table says (`reg`), and that `maxfd` is the greatest descriptor with events.  The three
functions of ae.c that write the table keep it, for any API that does what it is told
in that call (`AddsWell`, `DelsWell`).  epoll always does.  select does as long as the
descriptors fit into its sets: `aeApiResize` looks at this and `aeApiCreate` does not
(`event_table_agrees`).
-/
import DecomposeRedis.EventTable
import DecomposeRedis.Runs

namespace Ae

open Function

/-- `maxfd` is the greatest descriptor with events, or -1. -/
structure Greatest (masks : ℕ → Mask) (maxfd : ℤ) : Prop where
  le : ∀ fd, masks fd ≠ .none → (fd : ℤ) ≤ maxfd
  attained : maxfd = -1 ∨ ∃ fd : ℕ, maxfd = fd ∧ masks fd ≠ .none

/-- The table agrees with what is registered. -/
structure Agrees {κ : Type} (reg : κ → ℕ → Mask → Prop) (l : EventLoop κ) : Prop where
  registered : ∀ fd, reg l.apidata fd (l.mask fd)
  greatest : Greatest l.mask l.maxfd
  lt_setsize : l.maxfd < l.setsize

section Masks

variable {masks : ℕ → Mask} {m m' : Mask}

theorem Greatest.neg_one_le {maxfd : ℤ} (h : Greatest masks maxfd) : -1 ≤ maxfd := by
  rcases h.attained with h | ⟨fd, h, -⟩
  · exact h ▸ le_rfl
  · omega

theorem Greatest.eq_none {maxfd : ℤ} (h : Greatest masks maxfd) {fd : ℕ} (hfd : maxfd < fd) :
    masks fd = .none := by
  by_contra hne
  have hle := h.le fd hne
  omega

theorem Mask.or_ne_none (h : m' ≠ .none) : m.or m' ≠ .none := by
  intro hor
  apply h
  simp only [Mask.or, Mask.none, Mask.mk.injEq, Bool.or_eq_false_iff] at hor
  obtain ⟨⟨-, hr⟩, ⟨-, hw⟩, -, hb⟩ := hor
  cases m'
  simp_all [Mask.none]

theorem Mask.or_comm : m.or m' = m'.or m := by
  simp only [Mask.or, Bool.or_comm]

theorem scanDown_greatest {events : ℕ → FileEvent} (j : ℕ)
    (h : ∀ fd, (events fd).mask ≠ .none → fd < j) :
    Greatest (fun fd => (events fd).mask) (scanDown events j) := by
  induction j with
  | zero => exact ⟨fun fd hfd => absurd (h fd hfd) (Nat.not_lt_zero fd), .inl rfl⟩
  | succ j ih =>
    rw [scanDown]
    split
    · rename_i hj
      refine ⟨fun fd hfd => ?_, .inr ⟨j, rfl, hj⟩⟩
      have hlt := h fd hfd
      omega
    · rename_i hj
      refine ih fun fd hfd => ?_
      have hlt := h fd hfd
      have hne : fd ≠ j := by
        rintro rfl
        exact hj hfd
      omega

theorem scanDown_lt (events : ℕ → FileEvent) (j : ℕ) : scanDown events j < j := by
  induction j with
  | zero =>
    rw [scanDown]
    omega
  | succ j ih =>
    rw [scanDown]
    split <;> omega

end Masks

section Calls

variable {κ : Type} {api : Api κ} {reg : κ → ℕ → Mask → Prop} {l : EventLoop κ} {fd : ℕ}
  {mask : Mask}

/-- In this call `aeApiAddEvent` does what it is told, or it fails and does nothing. -/
def AddsWell (api : Api κ) (reg : κ → ℕ → Mask → Prop) (l : EventLoop κ) (fd : ℕ) (mask : Mask)
    (fails : Bool) : Prop :=
  ∃ k ok, api.aeApiAddEvent l.apidata l.mask fd mask fails = some (k, ok)
    ∧ (ok = false → k = l.apidata)
    ∧ (ok = true → reg k fd ((l.mask fd).or mask) ∧ ∀ d, d ≠ fd → reg k d (l.mask d))

/-- In this call `aeApiDelEvent` does what it is told. -/
def DelsWell (api : Api κ) (reg : κ → ℕ → Mask → Prop) (l : EventLoop κ) (fd : ℕ)
    (mask : Mask) : Prop :=
  ∃ k, api.aeApiDelEvent l.apidata l.mask fd mask = some k
    ∧ reg k fd ((l.mask fd).diff mask) ∧ ∀ d, d ≠ fd → reg k d (l.mask d)

theorem mask_update {fe : FileEvent} (d : ℕ) :
    (update l.events fd fe d).mask = update l.mask fd fe.mask d := by
  rcases eq_or_ne d fd with rfl | hne
  · rw [update_self, update_self]
  · rw [update_of_ne hne, update_of_ne hne, EventLoop.mask]

/-- The slot of one descriptor is written. -/
theorem registered_update {k : κ} {m : Mask} (hself : reg k fd m)
    (hothers : ∀ d, d ≠ fd → reg k d (l.mask d)) (d : ℕ) : reg k d (update l.mask fd m d) := by
  rcases eq_or_ne d fd with rfl | hne
  · rwa [update_self]
  · rw [update_of_ne hne]
    exact hothers d hne

theorem aeCreateFileEvent_agrees (h : Agrees reg l) (hmask : mask ≠ .none) (proc clientData : ℕ)
    {fails : Bool} (hadd : fd < l.setsize → AddsWell api reg l fd mask fails) :
    ∃ l' ok, aeCreateFileEvent api l fd mask proc clientData fails = some (l', ok)
      ∧ Agrees reg l' ∧ (ok = false → l' = l) ∧ l'.setsize = l.setsize := by
  rw [aeCreateFileEvent]
  split
  · exact ⟨l, false, rfl, h, fun _ => rfl, rfl⟩
  rename_i hfd
  obtain ⟨k, ok, hrun, hfail, hok⟩ := hadd (Nat.lt_of_not_le hfd)
  rw [hrun, Option.map_some]
  cases ok with
  | false =>
    obtain rfl := hfail rfl
    exact ⟨l, false, rfl, h, fun _ => rfl, rfl⟩
  | true =>
    obtain ⟨hself, hothers⟩ := hok rfl
    have hmasks : ∀ d, (update l.events fd ((l.events fd).add mask proc clientData) d).mask
        = update l.mask fd ((l.mask fd).or mask) d := fun d => mask_update d
    refine ⟨_, true, rfl, ⟨fun d => ?_, ⟨fun d hd => ?_, ?_⟩, ?_⟩, nofun, rfl⟩
    · show reg k d (update l.events fd _ d).mask
      rw [hmasks]
      exact registered_update hself hothers d
    · have hd : (update l.events fd _ d).mask ≠ .none := hd
      rw [hmasks] at hd
      show (d : ℤ) ≤ max l.maxfd fd
      rcases eq_or_ne d fd with rfl | hne
      · exact le_max_right ..
      · rw [update_of_ne hne] at hd
        exact (h.greatest.le d hd).trans (le_max_left ..)
    · -- the greatest is the new one, or that from before
      refine .inr ?_
      show ∃ d : ℕ, max l.maxfd fd = d ∧ (update l.events fd _ d).mask ≠ .none
      rcases le_or_gt l.maxfd fd with hle | hlt
      · refine ⟨fd, max_eq_right hle, ?_⟩
        rw [update_self]
        exact Mask.or_ne_none hmask
      · rcases h.greatest.attained with hneg | ⟨d, hd, hne⟩
        · omega
        · refine ⟨d, (max_eq_left hlt.le).trans hd, ?_⟩
          have hdfd : d ≠ fd := by omega
          rw [update_of_ne hdfd]
          exact hne
    · show max l.maxfd fd < (l.setsize : ℤ)
      have hlt := h.lt_setsize
      omega

theorem aeDeleteFileEvent_agrees (h : Agrees reg l)
    (hdel : fd < l.setsize → l.mask fd ≠ .none → DelsWell api reg l fd mask.withBarrier) :
    ∃ l', aeDeleteFileEvent api l fd mask = some l' ∧ Agrees reg l' ∧ l'.setsize = l.setsize := by
  rw [aeDeleteFileEvent]
  split_ifs with hfd hnone
  · exact ⟨l, rfl, h, rfl⟩
  · exact ⟨l, rfl, h, rfl⟩
  obtain ⟨k, hrun, hself, hothers⟩ := hdel (Nat.lt_of_not_le hfd) hnone
  rw [hrun, Option.map_some]
  have hmasks : ∀ d, (update l.events fd { l.events fd with
      mask := (l.mask fd).diff mask.withBarrier } d).mask
      = update l.mask fd ((l.mask fd).diff mask.withBarrier) d := fun d => mask_update d
  -- a descriptor with events left had events before
  have hleft : ∀ d, update l.mask fd ((l.mask fd).diff mask.withBarrier) d ≠ .none →
      l.mask d ≠ .none := by
    intro d hd
    rcases eq_or_ne d fd with rfl | hne
    · exact hnone
    · rwa [update_of_ne hne] at hd
  refine ⟨_, rfl, ⟨fun d => ?_, ?_, ?_⟩, rfl⟩
  · show reg k d (update l.events fd _ d).mask
    rw [hmasks]
    exact registered_update hself hothers d
  · show Greatest (fun d => (update l.events fd _ d).mask) (ite _ _ _)
    split
    · rename_i hmax
      refine scanDown_greatest fd fun d hd => ?_
      rw [hmasks] at hd
      have hle := h.greatest.le d (hleft d hd)
      have hne : d ≠ fd := by
        rintro rfl
        rw [update_self] at hd
        exact hd hmax.2
      omega
    · rename_i hmax
      refine ⟨fun d hd => h.greatest.le d (hleft d (hmasks d ▸ hd)), ?_⟩
      rcases h.greatest.attained with hneg | ⟨d, hd, hne⟩
      · exact .inl hneg
      · refine .inr ⟨d, hd, ?_⟩
        rw [hmasks]
        rcases eq_or_ne d fd with rfl | hdfd
        · rw [update_self]
          exact fun hnone => hmax ⟨hd.symm, hnone⟩
        · rwa [update_of_ne hdfd]
  · show ite _ _ _ < (l.setsize : ℤ)
    split
    · have hlt := scanDown_lt (update l.events fd { l.events fd with
        mask := (l.mask fd).diff mask.withBarrier }) fd
      omega
    · exact h.lt_setsize

/-- No descriptor with events is dropped, and all others had none. -/
theorem aeResizeSetSize_agrees (h : Agrees reg l) (setsize : ℤ)
    (hresize : ∀ n k, api.aeApiResize l.apidata n = some k → ∀ d m, reg l.apidata d m → reg k d m) :
    Agrees reg (aeResizeSetSize api l setsize).1
      ∧ ((aeResizeSetSize api l setsize).2 = false → (aeResizeSetSize api l setsize).1 = l)
      ∧ ∀ d, (aeResizeSetSize api l setsize).1.mask d = l.mask d := by
  rw [aeResizeSetSize]
  split_ifs with hsame hsmall
  · exact ⟨h, nofun, fun _ => rfl⟩
  · exact ⟨h, fun _ => rfl, fun _ => rfl⟩
  rcases hrun : api.aeApiResize l.apidata setsize.toNat with _ | k
  · exact ⟨h, fun _ => rfl, fun _ => rfl⟩
  have hmask : ∀ d, (clearSlots l.events l.maxfd setsize.toNat d).mask = l.mask d := by
    intro d
    rw [clearSlots]
    split
    · rename_i hd
      exact (h.greatest.eq_none hd.1).symm
    · rfl
  have hmasks : (fun d => (clearSlots l.events l.maxfd setsize.toNat d).mask) = l.mask :=
    funext hmask
  refine ⟨⟨fun d => ?_, ?_, ?_⟩, nofun, hmask⟩
  · show reg k d (clearSlots l.events l.maxfd setsize.toNat d).mask
    rw [hmask]
    exact hresize _ _ hrun d _ (h.registered d)
  · show Greatest (fun d => (clearSlots l.events l.maxfd setsize.toNat d).mask) l.maxfd
    rw [hmasks]
    exact h.greatest
  · show l.maxfd < (setsize.toNat : ℤ)
    have hge := h.greatest.neg_one_le
    omega

end Calls

/-! ### The two APIs -/

/-- A descriptor is registered with epoll as its mask says. -/
def Epoll.Registered (k : Epoll.Kernel) (fd : ℕ) (mask : Mask) : Prop :=
  k fd = if mask = .none then none else some (Epoll.interest mask)

/-- A descriptor is in the sets of select as its mask says. -/
def Select.Registered (s : Select.State) (fd : ℕ) (mask : Mask) : Prop :=
  s.rfds fd = mask.readable ∧ s.wfds fd = mask.writable

section Apis

variable {fd fdSetsize : ℕ} {mask : Mask}

theorem Epoll.addsWell {l : EventLoop Epoll.Kernel} (h : Agrees Epoll.Registered l)
    (hmask : mask ≠ .none) (fails : Bool) :
    AddsWell Epoll.api Epoll.Registered l fd mask fails := by
  have hreg : l.apidata fd = _ := h.registered fd
  cases fails with
  | true => exact ⟨l.apidata, false, rfl, fun _ => rfl, by rintro ⟨⟩⟩
  | false =>
    have hor : mask.or (l.mask fd) = (l.mask fd).or mask := Mask.or_comm
    -- the kernel knows the descriptor exactly if its mask is not empty
    have hctl : epollCtl l.apidata (if l.mask fd = .none then .add else .mod) fd
        (interest (mask.or (l.mask fd)))
        = some (update l.apidata fd (some (interest ((l.mask fd).or mask)))) := by
      rw [hor]
      by_cases hnone : l.mask fd = .none
      · rw [if_pos hnone] at hreg ⊢
        simp only [epollCtl, hreg]
      · rw [if_neg hnone] at hreg ⊢
        simp only [epollCtl, hreg]
    refine ⟨update l.apidata fd (some (interest ((l.mask fd).or mask))), true, ?_, by rintro ⟨⟩,
      fun _ => ⟨?_, ?_⟩⟩
    · simp only [api, aeApiAddEvent]
      rw [hctl]
      rfl
    · rw [Registered, update_self, if_neg (Mask.or_ne_none hmask)]
    · intro d hd
      rw [Registered, update_of_ne hd]
      exact h.registered d

theorem Epoll.delsWell {l : EventLoop Epoll.Kernel} (h : Agrees Epoll.Registered l)
    (hfd : l.mask fd ≠ .none) :
    DelsWell Epoll.api Epoll.Registered l fd mask := by
  have hreg : l.apidata fd = some (interest (l.mask fd)) := (h.registered fd).trans (if_neg hfd)
  have hctl : epollCtl l.apidata (if (l.mask fd).diff mask ≠ .none then .mod else .del) fd
      (interest ((l.mask fd).diff mask))
      = some (update l.apidata fd (if (l.mask fd).diff mask = .none then none
        else some (interest ((l.mask fd).diff mask)))) := by
    by_cases hnone : (l.mask fd).diff mask = .none
    · rw [if_neg (not_not.mpr hnone), if_pos hnone]
      simp only [epollCtl, hreg]
    · rw [if_pos hnone, if_neg hnone]
      simp only [epollCtl, hreg]
  refine ⟨_, congrArg some ((congrArg (Option.getD · l.apidata) hctl).trans
    (Option.getD_some ..)), ?_, ?_⟩
  · rw [Registered, update_self]
  · intro d hd
    rw [Registered, update_of_ne hd]
    exact h.registered d

theorem Select.write_eq (hfd : fd < fdSetsize) (value : Bool) (s : Select.State) (mask : Mask) :
    Select.write fdSetsize value s fd mask = some
      ⟨if mask.readable then update s.rfds fd value else s.rfds,
        if mask.writable then update s.wfds fd value else s.wfds⟩ := by
  simp only [Select.write, Select.fdWrite, hfd, if_true]
  cases mask.readable <;> cases mask.writable <;> rfl

theorem Select.addsWell {l : EventLoop Select.State} (h : Agrees Select.Registered l)
    (hfd : fd < fdSetsize) (fails : Bool) :
    AddsWell (Select.api fdSetsize) Select.Registered l fd mask fails := by
  obtain ⟨hr, hw⟩ := h.registered fd
  refine ⟨_, true, congrArg (Option.map _) (write_eq hfd true l.apidata mask), nofun, fun _ =>
    ⟨⟨?_, ?_⟩, ?_⟩⟩
  · cases hread : mask.readable <;> simp [Mask.or, hread, hr]
  · cases hwrite : mask.writable <;> simp [Mask.or, hwrite, hw]
  · intro d hd
    obtain ⟨hr, hw⟩ := h.registered d
    refine ⟨?_, ?_⟩
    · cases mask.readable <;> simp [update_of_ne hd, hr]
    · cases mask.writable <;> simp [update_of_ne hd, hw]

theorem Select.delsWell {l : EventLoop Select.State} (h : Agrees Select.Registered l)
    (hfd : fd < fdSetsize) : DelsWell (Select.api fdSetsize) Select.Registered l fd mask := by
  obtain ⟨hr, hw⟩ := h.registered fd
  refine ⟨_, write_eq hfd false l.apidata mask, ⟨?_, ?_⟩, ?_⟩
  · cases hread : mask.readable <;> simp [Mask.diff, hread, hr]
  · cases hwrite : mask.writable <;> simp [Mask.diff, hwrite, hw]
  · intro d hd
    obtain ⟨hr, hw⟩ := h.registered d
    refine ⟨?_, ?_⟩
    · cases mask.readable <;> simp [update_of_ne hd, hr]
    · cases mask.writable <;> simp [update_of_ne hd, hw]

end Apis

/-! ### Runs -/

/-- A call of ae.c.  A descriptor is added with some event. -/
inductive Call where
  | aeCreateFileEvent (fd : ℕ) (mask : { m : Mask // m ≠ .none }) (proc clientData : ℕ)
      (fails : Bool)
  | aeDeleteFileEvent (fd : ℕ) (mask : Mask)
  | aeResizeSetSize (setsize : ℤ)

/-- The loop after a call, and whether the call has not returned `AE_ERR`. -/
def call {κ : Type} (api : Api κ) (l : EventLoop κ) : Call → Option (EventLoop κ × Bool)
  | .aeCreateFileEvent fd mask proc clientData fails =>
    aeCreateFileEvent api l fd mask.1 proc clientData fails
  | .aeDeleteFileEvent fd mask => (aeDeleteFileEvent api l fd mask).map fun l => (l, true)
  | .aeResizeSetSize setsize => some (aeResizeSetSize api l setsize)

/-- What a call does to a table that agrees: a call that fails changes nothing, and a
resize drops no descriptor with events. -/
def CallsWell {κ : Type} (api : Api κ) (l : EventLoop κ) (c : Call) : Prop :=
  ∃ l' ok, call api l c = some (l', ok) ∧ (ok = false → l' = l)
    ∧ ∀ setsize, c = .aeResizeSetSize setsize →
      ∀ fd, l.mask fd ≠ .none → l'.mask fd = l.mask fd ∧ fd < l'.setsize

/-- After every list of calls the table and the API agree, and the next call is as it
should be. -/
def KeepsTable {κ : Type} (api : Api κ) (reg : κ → ℕ → Mask → Prop) (l₀ : EventLoop κ) : Prop :=
  ∀ calls, ∃ l oks, Runs.run (call api) l₀ calls = some (l, oks) ∧ Agrees reg l ∧ ∀ c,
    CallsWell api l c

section Runs

variable {κ : Type} {api : Api κ} {reg : κ → ℕ → Mask → Prop}

theorem agrees_create {apidata : κ} (h : ∀ fd, reg apidata fd .none) (setsize : ℕ) :
    Agrees reg (aeCreateEventLoop setsize apidata) := by
  refine ⟨h, ⟨fun _ hfd => absurd rfl hfd, .inl rfl⟩, ?_⟩
  show (-1 : ℤ) < setsize
  omega

/-- An API that does what it is told for the descriptors below a bound, which also
bounds the set size. -/
structure Api.Tracks (api : Api κ) (reg : κ → ℕ → Mask → Prop) (fits : ℕ → Prop) : Prop where
  add : ∀ l, Agrees reg l → fits l.setsize → ∀ fd mask fails, fd < l.setsize → mask ≠ .none →
    AddsWell api reg l fd mask fails
  del : ∀ l, Agrees reg l → fits l.setsize → ∀ fd mask, fd < l.setsize → l.mask fd ≠ .none →
    DelsWell api reg l fd mask
  resize : ∀ k n k', api.aeApiResize k n = some k' → fits n ∧ ∀ d m, reg k d m → reg k' d m

variable {fits : ℕ → Prop} {l : EventLoop κ}

theorem setsize_aeResizeSetSize (h : api.Tracks reg fits) (hfits : fits l.setsize) (setsize : ℤ) :
    fits (aeResizeSetSize api l setsize).1.setsize := by
  rw [aeResizeSetSize]
  split_ifs
  · exact hfits
  · exact hfits
  rcases hrun : api.aeApiResize l.apidata setsize.toNat with _ | k
  · exact hfits
  · exact (h.resize _ _ _ hrun).1

theorem call_agrees (h : api.Tracks reg fits) (hl : Agrees reg l) (hfits : fits l.setsize)
    (c : Call) :
    ∃ l' ok, call api l c = some (l', ok) ∧ Agrees reg l' ∧ fits l'.setsize ∧ (ok = false → l' = l)
      ∧ ∀ setsize, c = .aeResizeSetSize setsize →
        ∀ fd, l.mask fd ≠ .none → l'.mask fd = l.mask fd ∧ fd < l'.setsize := by
  cases c with
  | aeCreateFileEvent fd mask proc clientData fails =>
    obtain ⟨l', ok, hrun, hl', hfail, hsize⟩ := aeCreateFileEvent_agrees hl mask.2 proc clientData
      fun hfd => h.add l hl hfits fd mask.1 fails hfd mask.2
    exact ⟨l', ok, hrun, hl', hsize ▸ hfits, hfail, nofun⟩
  | aeDeleteFileEvent fd mask =>
    obtain ⟨l', hrun, hl', hsize⟩ := aeDeleteFileEvent_agrees hl
      fun hfd hmask => h.del l hl hfits fd mask.withBarrier hfd hmask
    refine ⟨l', true, ?_, hl', hsize ▸ hfits, nofun, nofun⟩
    rw [call, hrun]
    rfl
  | aeResizeSetSize setsize =>
    have hresize : ∀ n k, api.aeApiResize l.apidata n = some k → ∀ d m, reg l.apidata d m →
        reg k d m :=
      fun n k hk => (h.resize _ n k hk).2
    obtain ⟨hl', hfail, hmask⟩ := aeResizeSetSize_agrees hl setsize hresize
    refine ⟨_, _, rfl, hl', setsize_aeResizeSetSize h hfits setsize, hfail, fun _ _ fd hfd =>
      ⟨hmask fd, ?_⟩⟩
    have hle := hl'.greatest.le fd (by rw [hmask]; exact hfd)
    exact Int.ofNat_lt.mp (hle.trans_lt hl'.lt_setsize)

theorem keepsTable (h : api.Tracks reg fits) {l₀ : EventLoop κ} (hl : Agrees reg l₀)
    (hfits : fits l₀.setsize) :
    KeepsTable api reg l₀ := by
  intro calls
  have hstep : ∀ l c, Agrees reg l ∧ fits l.setsize → True →
      ∃ l' ok, call api l c = some (l', ok) ∧ Agrees reg l' ∧ fits l'.setsize := by
    intro l c hl _
    obtain ⟨l', ok, hrun, hl', hfits', -⟩ := call_agrees h hl.1 hl.2 c
    exact ⟨l', ok, hrun, hl', hfits'⟩
  have hmeets : Runs.Meets (call api) (fun _ _ => True) l₀ calls :=
    Runs.meets_of_forall l₀ fun _ _ => trivial
  obtain ⟨l, oks, hrun, hl', hfits'⟩ := Runs.run_invariant hstep ⟨hl, hfits⟩ hmeets
  refine ⟨l, oks, hrun, hl', fun c => ?_⟩
  obtain ⟨l', ok, hcall, -, -, hfail, hresize⟩ := call_agrees h hl' hfits' c
  exact ⟨l', ok, hcall, hfail, hresize⟩

end Runs

theorem Epoll.tracks : Epoll.api.Tracks Epoll.Registered fun _ => True where
  add := fun _ hl _ _ _ fails _ hmask => Epoll.addsWell hl hmask fails
  del := fun _ hl _ _ _ _ hfd => Epoll.delsWell hl hfd
  resize := by
    rintro k n k' h
    obtain rfl : k = k' := Option.some.inj h
    exact ⟨trivial, fun _ _ => id⟩

theorem Select.tracks (fdSetsize : ℕ) :
    (Select.api fdSetsize).Tracks Select.Registered (· ≤ fdSetsize) where
  add := fun _ hl hfits _ _ fails hfd _ => Select.addsWell hl (hfd.trans_le hfits) fails
  del := fun _ hl hfits _ _ hfd _ => Select.delsWell hl (hfd.trans_le hfits)
  resize := by
    intro k n k' h
    have h : (if fdSetsize ≤ n then none else some k) = some k' := h
    split at h
    · cases h
    · obtain rfl : k = k' := Option.some.inj h
      exact ⟨by omega, fun _ _ => id⟩

/-- The call for a descriptor that is to be read. -/
def Call.read (fd : ℕ) : Call := .aeCreateFileEvent fd ⟨⟨true, false, false⟩, by decide⟩ 0 0 false

/-- Where the table is larger than an `fd_set`, `FD_SET` writes outside of it. -/
theorem Select.call_read_eq_none {fdSetsize setsize : ℕ} (h : fdSetsize < setsize) :
    call (Select.api fdSetsize) (aeCreateEventLoop setsize Select.aeApiCreate) (.read fdSetsize)
      = none := by
  have hsize : ¬ (aeCreateEventLoop setsize Select.aeApiCreate).setsize ≤ fdSetsize :=
    Nat.not_le.mpr h
  show aeCreateFileEvent _ _ fdSetsize ⟨true, false, false⟩ 0 0 false = none
  rw [aeCreateFileEvent, if_neg hsize]
  simp [Select.api, Select.aeApiAddEvent, Select.write, Select.fdWrite]

/-- **The event table and the kernel agree**, with epoll always, and with select exactly
if the descriptors that the loop was created for fit into an `fd_set`. -/
theorem event_table_agrees (fdSetsize setsize : ℕ) :
    KeepsTable Epoll.api Epoll.Registered (aeCreateEventLoop setsize Epoll.aeApiCreate)
    ∧ (KeepsTable (Select.api fdSetsize) Select.Registered
      (aeCreateEventLoop setsize Select.aeApiCreate)
      ↔ setsize ≤ fdSetsize) := by
  refine ⟨keepsTable Epoll.tracks (agrees_create (fun _ => rfl) setsize) trivial, fun h => ?_,
    fun h => ?_⟩
  · by_contra hlt
    obtain ⟨l, oks, hrun, -⟩ := h [.read fdSetsize]
    rw [Runs.run, Select.call_read_eq_none (Nat.lt_of_not_le hlt)] at hrun
    cases hrun
  · exact keepsTable (Select.tracks fdSetsize) (agrees_create (fun _ => ⟨rfl, rfl⟩) setsize) h

/-- A loop for 10128 descriptors and an `fd_set` of 1024 of them. -/
theorem select_set_overflow :
    Runs.run (call (Select.api 1024)) (aeCreateEventLoop 10128 Select.aeApiCreate)
      [.read 1024] = none
    ∧ ¬ KeepsTable (Select.api 1024) Select.Registered
      (aeCreateEventLoop 10128 Select.aeApiCreate) := by
  have hrun : Runs.run (call (Select.api 1024)) (aeCreateEventLoop 10128 Select.aeApiCreate)
      [.read 1024] = none := by
    rw [Runs.run, Select.call_read_eq_none (by decide)]
    rfl
  refine ⟨hrun, fun h => ?_⟩
  obtain ⟨l, oks, hsome, -⟩ := h [.read 1024]
  cases hrun.symm.trans hsome

end Ae
