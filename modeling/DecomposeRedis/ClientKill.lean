/-
CLIENT KILL with options (networking.c, `clientCommand`).

The loop goes through `server.clients` and frees the clients that match on the way, so that
their nodes leave the list under the iterator; a protected client stays in the list and is
marked, and so is the caller.

* `killLoop_spec`: the clients that are freed or marked are those that the filter selects.
* `clientKill_eq`: the replies and the effects are those of `clientKill`.
* `clientKill_exact_iff`: the filter selects what the options ask for unless one of them has
  the value that stands for no filter, or an address has a zero byte.
-/
import DecomposeRedis.AsyncFree
import DecomposeRedis.ClientCommands
import Mathlib.Data.List.TakeWhile

namespace ClientQueues

open Networking Adlist FlagQueue Function

/-! ### The loop -/

/-- The server, `server.clients`, the clients killed so far, and `close_this_client`. -/
structure KillState where
  srv : Server
  clients : NodeList ℕ
  killed : List ℕ
  closeThisClient : Bool

section

variable (filter : KillFilter) (info : ℕ → Peer) (caller : ℕ)

/-- The body of the loop. -/
def killOne (st : KillState) (node c : ℕ) : Except Stop KillState :=
  if !filter.selects (info c) then .ok st
  else if c = caller then .ok { st with killed := st.killed ++ [c], closeThisClient := true }
  else
    (st.srv.get c).bind fun conn =>
      (freeClient st.srv c).bind fun srv =>
        -- `unlinkClient` takes the client out of the list
        if conn.isProtected then .ok { st with srv := srv, killed := st.killed ++ [c] }
        else
          match listDelNode st.clients node with
          | none => .error .dangling
          | some clients =>
            .ok { st with srv := srv, clients := clients, killed := st.killed ++ [c] }

/-- The loop over `server.clients`. -/
def killLoop (srv : Server) (clients : NodeList ℕ) : Except Stop KillState :=
  forEach KillState.clients (killOne filter info caller) (listLength clients) (listRewind clients)
    ⟨srv, clients, [], false⟩

end

/-- CLIENT KILL with options: the error that was queued, or the state after the loop. -/
def clientKillRun (h : Helpers) (slack : ℕ → ℕ) (cl : Caller) (info : ℕ → Peer) (caller : ℕ)
    (srv : Server) (clients : NodeList ℕ) (args : List Sds.Bytes) :
    Except Stop (Emit ⊕ KillState) :=
  match killOptions h slack cl ⟨none, none, 0, true⟩ args with
  | .inl error => .ok (.inl error)
  | .inr filter => (killLoop filter info caller srv clients).map .inr

/-- A client is closed or marked for closing. -/
def Server.Ended (s : Server) (c : ℕ) : Prop :=
  match s.slot c with
  | .unused => False
  | .live conn => conn.flags.fd = -1 ∨ conn.queued .close = true
  | .freed => True

section

variable {filter : KillFilter} {info : ℕ → Peer} {caller : ℕ}

theorem FreeResult.ended {s s' : Server} {c : ℕ} {conn : Conn} (h : FreeResult s c conn s') :
    s'.Ended c := by
  rw [Server.Ended]
  cases h with
  | isProtected _ _ hslot =>
    rw [hslot, Conn.closing]
    split_ifs with hmarked
    · rcases Bool.or_eq_true_iff.mp hmarked with hclose | hlua
      · exact .inr hclose
      · exact .inl (conn.noSocket (.inl hlua))
    · exact .inr queued_mark_self
  | cached _ _ hslot _ =>
    rw [hslot]
    exact .inl (fd_cached _)
  | freed _ hslot _ => rw [hslot]; trivial

/-- The clients that the loop closes at once or marks. -/
def toFree (filter : KillFilter) (info : ℕ → Peer) (caller : ℕ) (l : List ℕ) : List ℕ :=
  l.filter fun c => filter.selects (info c) && c ≠ caller

/-- What the loop did for some of the clients. -/
structure Killed (filter : KillFilter) (info : ℕ → Peer) (caller : ℕ) (l : List ℕ)
    (st st' : KillState) : Prop where
  killed : st'.killed = st.killed ++ l.filter fun c => filter.selects (info c)
  closeThisClient : st'.closeThisClient = (st.closeThisClient ||
    decide (caller ∈ l ∧ filter.selects (info caller)))
  ended : ∀ c ∈ toFree filter info caller l, st'.srv.Ended c
  others : ∀ c ∉ toFree filter info caller l, st'.srv.slot c = st.srv.slot c

/-- One turn. -/
theorem killOne_spec {st : KillState} {node c : ℕ} {front rest : List (ℕ × ℕ)} (hs : st.srv.Ready)
    (hfound : st.srv.Found) (hlive : st.srv.isLive c = true)
    (hnodes : st.clients.nodes = front ++ (node, c) :: rest) :
    ∃ st', killOne filter info caller st node c = .ok st' ∧ st'.srv.Ready ∧ st'.srv.Found ∧
      (∃ front', st'.clients.nodes = front' ++ rest) ∧ Killed filter info caller [c] st st' := by
  have hsame : ∃ front', st.clients.nodes = front' ++ rest :=
    ⟨front ++ [(node, c)], by rw [hnodes]; simp⟩
  rw [killOne]
  by_cases hsel : filter.selects (info c) = true
  · rw [if_neg (by simp [hsel])]
    by_cases hcaller : c = caller
    · subst hcaller
      rw [if_pos rfl]
      refine ⟨_, rfl, hs, hfound, hsame, ⟨by simp [hsel], by simp [hsel], fun d hd => ?_,
        fun d _ => rfl⟩⟩
      simp [toFree] at hd
    · rw [if_neg hcaller]
      obtain ⟨conn, hc⟩ : ∃ conn, st.srv.slot c = .live conn := by
        rw [Server.isLive] at hlive
        split at hlive
        · exact ⟨_, ‹_›⟩
        · cases hlive
      obtain ⟨srv, hrun, htouch, hresult⟩ := freeClient_result (hs .write (by decide)).linked hfound
        (hs .close (by decide)).linked hc
      have hsane := freeClient_sane (p := False) hs hc
      rw [hrun] at hsane
      have hready : srv.Ready := Server.Later.ready (Server.Next.toLater hsane) hs
      have hfound' : srv.Found := Server.Next.found hsane hfound
      have hkilled : ∀ clients, Killed filter info caller [c] st
          { st with srv := srv, clients := clients, killed := st.killed ++ [c] } := by
        intro clients
        refine ⟨by simp [hsel], by simp [Ne.symm hcaller], fun d hd => ?_, fun d hd => ?_⟩
        · obtain rfl : d = c := by
            rw [toFree, List.mem_filter] at hd
            exact List.mem_singleton.mp hd.1
          exact hresult.ended
        · refine (htouch False).frame d ?_
          rintro rfl
          exact hd (by simp [toFree, hsel, hcaller])
      rw [get_live hc, Except.bind, hrun, Except.bind]
      split_ifs with hprot
      · exact ⟨_, rfl, hready, hfound', hsame, hkilled _⟩
      · have hmem : (node, c) ∈ st.clients.nodes := by
          rw [hnodes]
          simp
        rw [listDelNode_of_mem hmem]
        exact ⟨_, rfl, hready, hfound', ⟨front, nodes_without_of_split hnodes⟩, hkilled _⟩
  · rw [if_pos (by simpa using hsel)]
    have hsel : filter.selects (info c) = false := eq_false_of_ne_true hsel
    refine ⟨st, rfl, hs, hfound, hsame, ⟨by simp [hsel], ?_, fun d hd => ?_, fun d _ => rfl⟩⟩
    · have hno : ¬ (caller ∈ [c] ∧ filter.selects (info caller) = true) := by
        rintro ⟨hmem, hyes⟩
        rw [List.mem_singleton.mp hmem, hsel] at hyes
        cases hyes
      rw [decide_eq_false hno, Bool.or_false]
    · simp [toFree, hsel] at hd

theorem toFree_cons (c : ℕ) (l : List ℕ) :
    toFree filter info caller (c :: l) = toFree filter info caller [c] ++
      toFree filter info caller l := by
  rw [toFree, toFree, toFree, ← List.filter_append]
  rfl

theorem Killed.cons {st st₁ st' : KillState} {c : ℕ} {l : List ℕ} (hnot : c ∉ l)
    (h : Killed filter info caller [c] st st₁) (h' : Killed filter info caller l st₁ st') :
    Killed filter info caller (c :: l) st st' where
  killed := by
    rw [h'.killed, h.killed, List.append_assoc, ← List.filter_append]
    rfl
  closeThisClient := by
    rw [h'.closeThisClient, h.closeThisClient, Bool.or_assoc, ← Bool.decide_or]
    congr 2
    simp only [List.mem_cons, List.not_mem_nil, or_false]
    exact propext or_and_right.symm
  ended := by
    intro d hd
    rw [toFree_cons, List.mem_append] at hd
    rcases hd with hd | hd
    · -- the later turns leave the client as it is
      obtain rfl : d = c := List.mem_singleton.mp (List.mem_filter.mp hd).1
      have hlater := h'.others d fun hmem => hnot (List.mem_filter.mp hmem).1
      have hended := h.ended d hd
      rw [Server.Ended] at hended ⊢
      rw [hlater]
      exact hended
    · exact h'.ended d hd
  others := by
    intro d hd
    rw [toFree_cons, List.mem_append, not_or] at hd
    rw [h'.others d hd.2, h.others d hd.1]

/-- The turns one after the other. -/
theorem killAll_spec (nodes : List (ℕ × ℕ)) :
    ∀ {st : KillState}, st.srv.Ready → st.srv.Found → (nodes.map Prod.snd).Nodup →
    (∀ c ∈ nodes.map Prod.snd, st.srv.isLive c = true) →
      (∃ front, st.clients.nodes = front ++ nodes) →
    ∃ st', nodes.foldlM (fun st x => killOne filter info caller st x.1 x.2) st = .ok st' ∧
      Killed filter info caller (nodes.map Prod.snd) st st' := by
  induction nodes with
  | nil =>
    intro st _ _ _ _ _
    exact ⟨st, rfl, by simp, by simp, fun c hc => absurd hc List.not_mem_nil, fun c _ => rfl⟩
  | cons x nodes ih =>
    obtain ⟨node, c⟩ := x
    rintro st hs hfound hnodup hlive ⟨front, hnodes⟩
    rw [List.map_cons, List.nodup_cons] at hnodup
    obtain ⟨st₁, hrun, hs₁, hfound₁, hnodes₁, hkilled⟩ :=
      @killOne_spec filter info caller st node c front nodes hs hfound
        (hlive c List.mem_cons_self) hnodes
    have hlive₁ : ∀ d ∈ nodes.map Prod.snd, st₁.srv.isLive d = true := by
      intro d hd
      have hsame : st₁.srv.slot d = st.srv.slot d := by
        refine hkilled.others d fun hmem => ?_
        obtain rfl : d = c := List.mem_singleton.mp (List.mem_filter.mp hmem).1
        exact hnodup.1 hd
      rw [Server.isLive, hsame, ← Server.isLive]
      exact hlive d (List.mem_cons_of_mem _ hd)
    obtain ⟨st', hrest, hkilled'⟩ := ih hs₁ hfound₁ hnodup.2 hlive₁ hnodes₁
    refine ⟨st', ?_, hkilled.cons hnodup.1 hkilled'⟩
    rw [List.foldlM_cons, hrun]
    exact hrest

/-- The loop, when the clients in the list are there and each is in it once. -/
theorem killLoop_spec {srv : Server} {clients : NodeList ℕ} (hs : srv.Ready) (hfound : srv.Found)
    (hnodup : clients.values.Nodup) (hlive : ∀ c ∈ clients.values, srv.isLive c = true) :
    ∃ st, killLoop filter info caller srv clients = .ok st ∧
      Killed filter info caller clients.values ⟨srv, clients, [], false⟩ st := by
  obtain ⟨st, hrun, hkilled⟩ := @killAll_spec filter info caller clients.nodes ⟨srv,
    clients, [], false⟩ hs hfound hnodup hlive ⟨[], rfl⟩
  refine ⟨st, ?_, hkilled⟩
  rw [← hrun, killLoop]
  refine forEach_eq_foldlM (fun st node c front rest st' hnodes hone => ?_) le_rfl ⟨[], rfl⟩
  -- what is ahead of the iterator stays
  have hsame : ∃ front', st.clients.nodes = front' ++ rest :=
    ⟨front ++ [(node, c)], by rw [hnodes]; simp⟩
  rw [killOne] at hone
  split_ifs at hone with hsel hcaller
  · exact Except.ok.inj hone ▸ hsame
  · exact Except.ok.inj hone ▸ hsame
  · obtain ⟨conn, hget, hone⟩ := Jobs.bind_eq_ok hone
    obtain ⟨srv', hfree, hone⟩ := Jobs.bind_eq_ok hone
    split_ifs at hone with hprot
    · exact Except.ok.inj hone ▸ hsame
    · have hmem : (node, c) ∈ st.clients.nodes := by
        rw [hnodes]
        simp
      rw [listDelNode_of_mem hmem] at hone
      exact Except.ok.inj hone ▸ ⟨front, nodes_without_of_split hnodes⟩

end

/-! ### The options -/

/-- The options of CLIENT KILL. -/
inductive KillOption where
  | id (n : ℤ)
  | type (t : ClientType)
  | addr (a : Sds.Bytes)
  | skipme (b : Bool)

namespace KillOption

/-- The options that some arguments are, if all of them are understood. -/
def ofArgs (h : Helpers) : List Sds.Bytes → Option (List KillOption)
  | [] => some []
  | [_] => none
  | opt :: value :: args =>
    if strcaseeq opt "id" then (h.getLongLongFromObject value).bind fun n =>
      (ofArgs h args).map (.id n :: ·)
    else if strcaseeq opt "type" then (getClientTypeByName value).bind fun t =>
      (ofArgs h args).map (.type t :: ·)
    else if strcaseeq opt "addr" then (ofArgs h args).map (.addr value :: ·)
    else if strcaseeq opt "skipme" then
      if strcaseeq value "yes" then (ofArgs h args).map (.skipme true :: ·)
      else if strcaseeq value "no" then (ofArgs h args).map (.skipme false :: ·)
      else none
    else none

def id? : KillOption → Option ℤ
  | .id n => some n
  | _ => none

def type? : KillOption → Option ClientType
  | .type t => some t
  | _ => none

def addr? : KillOption → Option Sds.Bytes
  | .addr a => some a
  | _ => none

def skipme? : KillOption → Option Bool
  | .skipme b => some b
  | _ => none

/-- What an option does to the filter. -/
def apply (f : KillFilter) : KillOption → KillFilter
  | .id n => { f with id := uint64 n }
  | .type t => { f with type := some t }
  | .addr a => { f with addr := some a }
  | .skipme b => { f with skipme := b }

end KillOption

/-- The last value of an option. -/
def lastOf {α : Type} (get : KillOption → Option α) (opts : List KillOption) : Option α :=
  (opts.filterMap get).getLast?

/-- The caller is spared. -/
def Skipped (opts : List KillOption) (p : Peer) : Prop :=
  p.isCaller = true ∧ (lastOf KillOption.skipme? opts).getD true = true

/-- What the options ask for: a client that meets the last value of each, and is not spared. -/
def Wanted (opts : List KillOption) (p : Peer) : Prop :=
  (∀ n ∈ lastOf KillOption.id? opts, p.id = uint64 n) ∧
    (∀ t ∈ lastOf KillOption.type? opts, p.type = t) ∧
    (∀ a ∈ lastOf KillOption.addr? opts, p.peerId = a) ∧ ¬ Skipped opts p

instance (opts : List KillOption) (p : Peer) : Decidable (Skipped opts p) :=
  inferInstanceAs (Decidable (_ ∧ _))

instance (opts : List KillOption) (p : Peer) : Decidable (Wanted opts p) :=
  inferInstanceAs (Decidable (_ ∧ _ ∧ _ ∧ _))

/-- The options have values that the code tells from none: when the last ID is zero or the last
address has a zero byte, no client meets the other options by which it would be killed
nevertheless. -/
structure KillTells (clients : List Peer) (opts : List KillOption) : Prop where
  id : ∀ n ∈ lastOf KillOption.id? opts, uint64 n = 0 → ∀ p ∈ clients,
    (∀ t ∈ lastOf KillOption.type? opts, p.type = t) →
      (∀ a ∈ lastOf KillOption.addr? opts, p.peerId = cstring a) → ¬ Skipped opts p → p.id = 0
  addr : ∀ a ∈ lastOf KillOption.addr? opts, 0 ∈ a → ∀ p ∈ clients,
    (∀ t ∈ lastOf KillOption.type? opts, p.type = t) →
      (∀ n ∈ lastOf KillOption.id? opts, uint64 n = 0 ∨ p.id = uint64 n) → ¬ Skipped opts p →
        p.peerId ≠ cstring a

section

variable {h : Helpers} {slack : ℕ → ℕ} {cl : Caller} {opts : List KillOption} {p : Peer}

theorem lastOf_cons {α : Type} (get : KillOption → Option α) (o : KillOption) :
    lastOf get (o :: opts) = (lastOf get opts).or (get o) := by
  rw [lastOf, lastOf]
  cases hget : get o with
  | none => rw [List.filterMap_cons_none hget, Option.or_none]
  | some x =>
    rw [List.filterMap_cons_some hget, List.getLast?_cons]
    cases (opts.filterMap get).getLast? <;> rfl

/-- The filter after all options. -/
theorem foldl_apply (opts : List KillOption) : ∀ f : KillFilter, opts.foldl KillOption.apply f =
    ⟨(lastOf KillOption.addr? opts).or f.addr, (lastOf KillOption.type? opts).or f.type,
      ((lastOf KillOption.id? opts).map uint64).getD f.id,
        (lastOf KillOption.skipme? opts).getD f.skipme⟩ := by
  induction opts with
  | nil => exact fun f => rfl
  | cons o opts ih =>
    intro f
    rw [List.foldl_cons, ih, lastOf_cons, lastOf_cons, lastOf_cons, lastOf_cons]
    cases o <;> simp [KillOption.apply, KillOption.addr?, KillOption.type?, KillOption.id?,
      KillOption.skipme?]

/-- The options are read: an error is queued, or the filter has what they say. -/
def ReadAs (f : KillFilter) (r : Emit ⊕ KillFilter) : Option (List KillOption) → Prop
  | none => ∃ e, r = .inl e
  | some opts => r = .inr (opts.foldl KillOption.apply f)

theorem ReadAs.cons {f : KillFilter} {r : Emit ⊕ KillFilter} {o : KillOption}
    {x : Option (List KillOption)} (hr : ReadAs (o.apply f) r x) : ReadAs f r (x.map (o :: ·)) := by
  cases x with
  | none => exact hr
  | some opts => exact hr

theorem killOptions_read (f : KillFilter) (args : List Sds.Bytes) :
    ReadAs f (killOptions h slack cl f args) (KillOption.ofArgs h args) := by
  fun_induction killOptions h slack cl f args with
  | case1 => rfl
  | case2 => exact ⟨_, rfl⟩
  | case3 f opt value args hopt hnone =>
    rw [KillOption.ofArgs, if_pos hopt, hnone]
    exact ⟨_, rfl⟩
  | case4 f opt value args hopt tmp hsome ih =>
    rw [KillOption.ofArgs, if_pos hopt, hsome]
    exact ReadAs.cons (o := .id tmp) ih
  | case5 f opt value args hid hopt hnone =>
    rw [KillOption.ofArgs, if_neg hid, if_pos hopt, hnone]
    exact ⟨_, rfl⟩
  | case6 f opt value args hid hopt type hsome ih =>
    rw [KillOption.ofArgs, if_neg hid, if_pos hopt, hsome]
    exact ReadAs.cons (o := .type type) ih
  | case7 f opt value args hid htype hopt ih =>
    rw [KillOption.ofArgs, if_neg hid, if_neg htype, if_pos hopt]
    exact ReadAs.cons (o := .addr value) ih
  | case8 f opt value args hid htype haddr hopt hyes ih =>
    rw [KillOption.ofArgs, if_neg hid, if_neg htype, if_neg haddr, if_pos hopt, if_pos hyes]
    exact ReadAs.cons (o := .skipme true) ih
  | case9 f opt value args hid htype haddr hopt hyes hno ih =>
    rw [KillOption.ofArgs, if_neg hid, if_neg htype, if_neg haddr, if_pos hopt,
      if_neg hyes, if_pos hno]
    exact ReadAs.cons (o := .skipme false) ih
  | case10 f opt value args hid htype haddr hopt hyes hno =>
    rw [KillOption.ofArgs, if_neg hid, if_neg htype, if_neg haddr, if_pos hopt,
      if_neg hyes, if_neg hno]
    exact ⟨_, rfl⟩
  | case11 f opt value args hid htype haddr hopt =>
    rw [KillOption.ofArgs, if_neg hid, if_neg htype, if_neg haddr, if_neg hopt]
    exact ⟨_, rfl⟩

theorem cstring_eq_self {a : Sds.Bytes} (ha : 0 ∉ a) : cstring a = a := by
  rw [cstring, List.takeWhile_eq_self_iff]
  intro b hb
  exact decide_eq_true (ne_of_mem_of_not_mem hb ha)

/-- What the filter of the options selects. -/
def Selected (opts : List KillOption) (p : Peer) : Prop :=
  (∀ n ∈ lastOf KillOption.id? opts, uint64 n = 0 ∨ p.id = uint64 n) ∧
    (∀ t ∈ lastOf KillOption.type? opts, p.type = t) ∧
    (∀ a ∈ lastOf KillOption.addr? opts, p.peerId = cstring a) ∧ ¬ Skipped opts p

theorem selects_iff (hpeer : 0 ∉ p.peerId) :
    (opts.foldl KillOption.apply ⟨none, none, 0, true⟩).selects p = true ↔ Selected opts p := by
  have hid : (((lastOf KillOption.id? opts).map uint64).getD 0 = 0 ||
      p.id = ((lastOf KillOption.id? opts).map uint64).getD 0) = true ↔
      ∀ n ∈ lastOf KillOption.id? opts, uint64 n = 0 ∨ p.id = uint64 n := by
    cases lastOf KillOption.id? opts <;> simp
  have htype : ((lastOf KillOption.type? opts).all fun type => p.type = type) = true ↔
      ∀ t ∈ lastOf KillOption.type? opts, p.type = t := by
    cases lastOf KillOption.type? opts <;> simp
  have haddr : ((lastOf KillOption.addr? opts).all fun addr => p.peerId = cstring addr) = true ↔
      ∀ a ∈ lastOf KillOption.addr? opts, p.peerId = cstring a := by
    cases lastOf KillOption.addr? opts <;> simp
  have hskip : (!(p.isCaller && (lastOf KillOption.skipme? opts).getD true)) = true ↔
      ¬ Skipped opts p := by
    rw [Skipped, Bool.not_eq_true', ← Bool.not_eq_true, Bool.and_eq_true]
  rw [foldl_apply, KillFilter.selects, Selected, ← hid, ← htype, ← haddr, ← hskip]
  simp only [Option.or_none, cstring_eq_self hpeer, Bool.and_eq_true]
  tauto

theorem wanted_selected (hpeer : 0 ∉ p.peerId) (hw : Wanted opts p) : Selected opts p := by
  obtain ⟨hid, htype, haddr, hskip⟩ := hw
  refine ⟨fun n hn => .inr (hid n hn), htype, fun a ha => ?_, hskip⟩
  have ha := haddr a ha
  rw [← ha, cstring_eq_self hpeer]

/-- The filter selects what is asked for iff it tells the values from none. -/
theorem selected_wanted_iff {clients : List Peer} (hpeer : ∀ p ∈ clients, 0 ∉ p.peerId) :
    (∀ p ∈ clients, Selected opts p → Wanted opts p) ↔ KillTells clients opts := by
  constructor
  · intro hall
    refine ⟨fun n hn hzero p hp htype haddr hskip => ?_,
      fun a ha hzero p hp htype hid hskip heq => ?_⟩
    · have hsel : Selected opts p := ⟨fun m hm => .inl (Option.mem_unique hn hm ▸ hzero), htype,
        haddr, hskip⟩
      exact ((hall p hp hsel).1 n hn).trans hzero
    · have hsel : Selected opts p := ⟨hid, htype, fun b hb => Option.mem_unique ha hb ▸ heq, hskip⟩
      exact hpeer p hp ((hall p hp hsel).2.2.1 a ha ▸ hzero)
  · rintro htells p hp ⟨hid, htype, haddr, hskip⟩
    refine ⟨fun n hn => ?_, htype, fun a ha => ?_, hskip⟩
    · rcases hid n hn with hzero | heq
      · rw [hzero]
        exact htells.id n hn hzero p hp htype haddr hskip
      · exact heq
    · by_cases hzero : 0 ∈ a
      · exact absurd (haddr a ha) (htells.addr a ha hzero p hp htype hid hskip)
      · rw [haddr a ha, cstring_eq_self hzero]

end

/-! ### The command -/

/-- The clients of the server: each is in the list once and can be used, one of them may be
the caller, and an address that was formatted has no zero byte. -/
structure Connected (srv : Server) (clients : NodeList ℕ) (info : ℕ → Peer)
    (caller : ℕ) : Prop where
  ready : srv.Ready
  found : srv.Found
  nodup : clients.values.Nodup
  live : ∀ c ∈ clients.values, srv.isLive c = true
  isCaller : ∀ c ∈ clients.values, (info c).isCaller = true ↔ c = caller
  peerId : ∀ c ∈ clients.values, 0 ∉ (info c).peerId

section

variable {sh : Shared} {h : Helpers} {slack : ℕ → ℕ} {cl : Caller} {server : ServerInfo}
  {info : ℕ → Peer} {caller : ℕ} {srv : Server} {clients : NodeList ℕ} {args : List Sds.Bytes}

/-- The loop does what `clientKill` says: the reply is the number of clients killed, the
caller is marked, and the others are freed. -/
theorem clientKill_eq (hc : Connected srv clients info caller)
    (hserver : server.clients = clients.values.map info) (hargs : 1 < args.length)
    {filter : KillFilter} (hopts : killOptions h slack cl ⟨none, none, 0, true⟩ args = .inr filter)
    {st : KillState} (hst : Killed filter info caller clients.values ⟨srv, clients, [], false⟩ st) :
    clientKill sh h server slack cl args =
      ⟨{ cl with flags := { cl.flags with
        closeAfterReply := cl.flags.closeAfterReply || st.closeThisClient } },
        .addReplyLongLong sh cl.flags slack st.killed.length,
        (toFree filter info caller clients.values).map fun c => .freeClient (info c).id⟩ := by
  have hkilled : server.clients.filter filter.selects
      = (clients.values.filter fun c => filter.selects (info c)).map info := by
    rw [hserver, List.filter_map]
    rfl
  have hlength : (server.clients.filter filter.selects).length = st.killed.length := by
    rw [hkilled, hst.killed, List.length_map, List.nil_append]
  have hcaller : (server.clients.filter filter.selects).any (·.isCaller) = st.closeThisClient := by
    rw [hst.closeThisClient, Bool.false_or, hkilled, List.any_map, Bool.eq_iff_iff,
      List.any_eq_true, decide_eq_true_eq]
    constructor
    · rintro ⟨c, hmem, hyes⟩
      obtain ⟨hmem, hsel⟩ := List.mem_filter.mp hmem
      obtain rfl := (hc.isCaller c hmem).mp hyes
      exact ⟨hmem, hsel⟩
    · rintro ⟨hmem, hsel⟩
      exact ⟨caller, List.mem_filter.mpr ⟨hmem, hsel⟩, (hc.isCaller caller hmem).mpr rfl⟩
  have hfree : (server.clients.filter filter.selects).filter (fun p => !p.isCaller) =
      (toFree filter info caller clients.values).map info := by
    rw [hkilled, List.filter_map, List.filter_filter, toFree]
    refine congrArg (List.map info) (List.filter_congr fun c hmem => ?_)
    have hiff := hc.isCaller c hmem
    rw [comp_apply, Bool.and_comm]
    congr 1
    rw [Bool.eq_iff_iff, decide_eq_true_eq, Bool.not_eq_true', ← Bool.not_eq_true, hiff]
  rw [clientKill, if_neg (by omega), if_pos hargs, hopts]
  dsimp only
  rw [if_neg (by omega), hlength, hcaller, hfree, List.map_map]
  rfl

theorem filter_eq_filter_iff {l : List ℕ} {p q : ℕ → Bool} :
    l.filter p = l.filter q ↔ ∀ x ∈ l, p x = q x := by
  refine ⟨fun heq x hx => ?_, List.filter_congr⟩
  have hmem : x ∈ l.filter p ↔ x ∈ l.filter q := by rw [heq]
  rw [List.mem_filter, List.mem_filter, and_iff_right hx, and_iff_right hx] at hmem
  exact Bool.eq_iff_iff.mpr hmem

/-- The clients closed or marked are those that are asked for, the reply is their number, and
nothing is done when there is an error in the options. -/
def KillsExactly (sh : Shared) (h : Helpers) (slack : ℕ → ℕ) (cl : Caller) (server : ServerInfo)
    (info : ℕ → Peer) (caller : ℕ) (srv : Server) (clients : NodeList ℕ)
    (args : List Sds.Bytes) : Prop :=
  match KillOption.ofArgs h args with
  | none => ∃ error, clientKillRun h slack cl info caller srv clients args = .ok (.inl error) ∧
      clientKill sh h server slack cl args = ⟨cl, error, []⟩
  | some opts => ∃ st, clientKillRun h slack cl info caller srv clients args = .ok (.inr st) ∧
      st.killed = (clients.values.filter fun c => Wanted opts (info c)) ∧
      (clientKill sh h server slack cl args).emit = .addReplyLongLong sh cl.flags slack
        st.killed.length ∧
      (st.closeThisClient = true ↔ caller ∈ st.killed) ∧
      (∀ c ∈ st.killed, c ≠ caller → st.srv.Ended c) ∧
      ∀ c, c ∉ st.killed ∨ c = caller → st.srv.slot c = srv.slot c

/-- **CLIENT KILL with options** kills exactly the clients that are asked for iff it can tell
the values of the options from none. -/
theorem clientKill_exact_iff (hc : Connected srv clients info caller)
    (hserver : server.clients = clients.values.map info) (hargs : 1 < args.length) :
    KillsExactly sh h slack cl server info caller srv clients args ↔
      ∀ opts, KillOption.ofArgs h args = some opts → KillTells (clients.values.map info) opts := by
  have hread : ReadAs ⟨none, none, 0, true⟩ (killOptions h slack cl ⟨none, none, 0, true⟩ args)
      (KillOption.ofArgs h args) :=
    killOptions_read _ args
  rw [KillsExactly, clientKillRun]
  cases hopts : KillOption.ofArgs h args with
  | none =>
    rw [hopts] at hread
    obtain ⟨error, herror⟩ := hread
    refine iff_of_true ⟨error, by rw [herror], ?_⟩ fun opts hno => absurd hno (by simp)
    rw [clientKill, if_neg (by omega), if_pos hargs, herror]
  | some opts =>
    rw [hopts] at hread
    obtain ⟨filter, hfilter⟩ : ∃ filter, opts.foldl KillOption.apply ⟨none, none, 0, true⟩
        = filter := ⟨_, rfl⟩
    have hread : killOptions h slack cl ⟨none, none, 0, true⟩ args = .inr filter := hfilter ▸ hread
    obtain ⟨st, hrun, hst⟩ := @killLoop_spec filter info caller srv clients hc.ready hc.found
      hc.nodup hc.live
    have hreply : (clientKill sh h server slack cl args).emit
        = .addReplyLongLong sh cl.flags slack st.killed.length := by
      rw [clientKill_eq hc hserver hargs hread hst]
    have hkilled : st.killed = clients.values.filter fun c => filter.selects (info c) := hst.killed
    have hpeers : ∀ p ∈ clients.values.map info, 0 ∉ p.peerId := List.forall_mem_map.mpr hc.peerId
    -- the lists of clients are the same iff the filters are
    have hsame : st.killed = (clients.values.filter fun c => Wanted opts (info c)) ↔
        KillTells (clients.values.map info) opts := by
      rw [hkilled, ← selected_wanted_iff hpeers, filter_eq_filter_iff, List.forall_mem_map]
      refine forall₂_congr fun c hmem => ?_
      rw [Bool.eq_iff_iff, ← hfilter, selects_iff (hc.peerId c hmem), decide_eq_true_eq]
      exact ⟨Iff.mp, fun himp => ⟨himp, wanted_selected (hc.peerId c hmem)⟩⟩
    have hfree : ∀ c, c ∈ toFree filter info caller clients.values ↔ c ∈ st.killed ∧
        c ≠ caller := by
      intro c
      rw [hkilled, toFree, List.mem_filter, List.mem_filter, Bool.and_eq_true,
        decide_eq_true_eq, and_assoc]
    rw [hread]
    dsimp only
    rw [hrun]
    simp only [Option.some.injEq, forall_eq']
    constructor
    · rintro ⟨st', hrun', hwanted, -⟩
      obtain rfl : st = st' := Sum.inr.inj (Except.ok.inj hrun')
      exact hsame.mp hwanted
    · intro htells
      refine ⟨st, rfl, hsame.mpr htells, hreply, ?_, fun c hmem hne => ?_, fun c hor => ?_⟩
      · rw [hst.closeThisClient, Bool.false_or, decide_eq_true_eq, hkilled, List.mem_filter]
      · exact hst.ended c ((hfree c).mpr ⟨hmem, hne⟩)
      · refine hst.others c fun hmem => ?_
        rcases hor with hno | heq
        · exact hno ((hfree c).mp hmem).1
        · exact ((hfree c).mp hmem).2 heq

end

/-- Two clients, of which the first one calls. -/
def twoPeers (c : ℕ) : Peer :=
  ⟨c + 1, text (if c = 0 then "10.0.0.1:6000" else "10.0.0.2:6000"), .normal, false, c = 0⟩

/-- `getLongLongFromObject` of the argument 0 -/
def zeroHelpers : Helpers :=
  { plainHelpers with getLongLongFromObject := fun s => if s = text "0" then some 0 else none }

/-- What is killed when two clients are connected and the first one calls. -/
def killedOfTwo (args : List Sds.Bytes) : Except Stop (List ℕ) :=
  (acts 1 emptyServer [.createClient 0 5, .createClient 1 6]).bind fun srv =>
    (clientKillRun zeroHelpers (fun _ => 0) plainCaller twoPeers 0 srv
      (listAddNodeTail (listAddNodeTail listCreate 0) 1) args).map
      (Sum.elim (fun _ => []) KillState.killed)

/-- No client has the ID 0, but a client is killed: the number stands for no filter. -/
theorem kill_id_zero : (∀ c, (twoPeers c).id ≠ 0) ∧ killedOfTwo [text "ID", text "0"] = .ok [1] :=
  ⟨fun c => Nat.succ_ne_zero c, rfl⟩

theorem clientKill_exact_iff_two :
    ∃ srv, acts 1 emptyServer [.createClient 0 5, .createClient 1 6] = .ok srv ∧
      (KillsExactly literals zeroHelpers (fun _ => 0) plainCaller
          ⟨false, false, false, [], [twoPeers 0, twoPeers 1], fun _ => []⟩ twoPeers 0 srv
          (listAddNodeTail (listAddNodeTail listCreate 0) 1) [text "ID", text "0"] ↔
        ∀ opts, KillOption.ofArgs zeroHelpers [text "ID", text "0"] = some opts →
          KillTells [twoPeers 0, twoPeers 1] opts) := by
  refine ⟨_, rfl, ?_⟩
  have hs := emptyServer_acts (show acts 1 emptyServer [.createClient 0 5, .createClient 1 6]
    = .ok _ from rfl)
  refine clientKill_exact_iff ⟨hs.1, hs.2, by decide, ?_, ?_, ?_⟩ rfl (by decide)
  · intro c hc
    obtain rfl | rfl : c = 0 ∨ c = 1 := by simpa [NodeList.values, listCreate] using hc
    · rfl
    · rfl
  · intro c _
    exact decide_eq_true_iff
  · intro c _
    show 0 ∉ text (if c = 0 then "10.0.0.1:6000" else "10.0.0.2:6000")
    split_ifs <;> decide

end ClientQueues
