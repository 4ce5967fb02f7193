/-
Clients that are to be closed after their reply (networking.c, `CLIENT_CLOSE_AFTER_REPLY`).

After a protocol error, when it kills itself and after a gopher request a client is
flagged, and its input is ignored from then on.  Nothing but `writeToClient` closes it,
so it has to be in `clients_pending_write`, or its socket has to be watched, or it has to
be in `clients_to_close` already (`Conn.onWay`).  The reply before the flag takes care of
that, unless the client has turned its replies off or skips them: then it is left for ever
(`closing_client_left`).

* `execute` and `loopEvent`: the requests, and what the event loop does otherwise.  A
  request that an I/O thread has read is one like any other.
* `Conn.Forth`: what all of them do to a client.
* `closing_client_on_its_way`: in a run in which the replies of a client are not
  suppressed when it is flagged, the flagged clients are on their way.
-/
import DecomposeRedis.QueueSteps
import DecomposeRedis.Runs

namespace ClientQueues

open Networking Adlist FlagQueue Function

/-! ### Requests -/

/-- The requests that set the flag or change the mode of replies, and all others, with the
replies that they add.  A gopher request adds at least one item. -/
inductive ClientRequest where
  | protocolError (err : Sds.Bytes) (slack : ℕ → ℕ)
  | clientReplyOn (ok : Sds.Bytes) (slack : ℕ)
  | clientReplyOff
  | clientReplySkip
  | clientKill (others : List ℕ) (answer : Sds.Bytes) (slack : ℕ)
  | gopher (item : Sds.Bytes) (slack : ℕ) (more : List (Sds.Bytes × ℕ))
  | command (calls : List (ℕ × ReplyCall))

/-- The server, with `CLIENT_REPLY_SKIP_NEXT` of each client. -/
structure Sessions where
  srv : Server
  skipNext : ℕ → Bool

/-- Change the flags of a client. -/
def changeFlags (g : ReplyFlags → ReplyFlags) (s : Server) (c : ℕ) : Except Stop Server :=
  (s.get c).map fun conn => s.set c (conn.withFlags (g conn.flags) conn.blocked)

/-- `c->flags |= CLIENT_CLOSE_AFTER_REPLY`, as in `setProtocolError` -/
def closeAfterReply (s : Server) (c : ℕ) : Except Stop Server :=
  changeFlags (fun f => { f with closeAfterReply := true }) s c

/-- `resetClient`: replies are skipped if the last command said so. -/
def resetClient (x : Sessions) (c : ℕ) : Except Stop Sessions :=
  (changeFlags (fun f => { f with replySkip := x.skipNext c }) x.srv c).map fun s =>
    ⟨s, update x.skipNext c false⟩

/-- The calls of `addReplyErrorLength` -/
def errorReply (err : Sds.Bytes) (slack : ℕ → ℕ) : List (Sds.Bytes × ℕ) :=
  (if err.head? ≠ some 45 then [([45, 69, 82, 82, 32], slack 0)] else []) ++ [(err, slack 1),
    ([13, 10], slack 2)]

section

variable (netMaxWritesPerEvent : ℕ)

/-- Some calls of `addReplyProto` -/
def addReplies (s : Server) (c : ℕ) (l : List (Sds.Bytes × ℕ)) : Except Stop Server :=
  l.foldlM (fun s x => reply netMaxWritesPerEvent s c (.addReplyProto x.1 x.2)) s

/-- What is done for a request. -/
def execute (x : Sessions) (c : ℕ) : ClientRequest → Except Stop Sessions
  | .protocolError err slack =>
    (addReplies netMaxWritesPerEvent x.srv c (errorReply err slack)).bind fun s =>
      (closeAfterReply s c).map fun s => { x with srv := s }
  | .clientReplyOn ok slack =>
    (changeFlags (fun f => { f with replySkip := false, replyOff := false }) x.srv c).bind fun s =>
      (addReplies netMaxWritesPerEvent s c [(ok, slack)]).bind fun s =>
        resetClient { x with srv := s } c
  | .clientReplyOff =>
    (changeFlags (fun f => { f with replyOff := true }) x.srv c).bind fun s =>
      resetClient { x with srv := s } c
  | .clientReplySkip =>
    (x.srv.get c).bind fun conn =>
      resetClient (if conn.flags.replyOff then x
        else { x with skipNext := update x.skipNext c true }) c
  | .clientKill others answer slack =>
    -- the client itself is flagged when its reply is there, and the others are freed at once
    (acts netMaxWritesPerEvent x.srv ((others.filter (· ≠ c)).map .freeClient)).bind fun s =>
      (addReplies netMaxWritesPerEvent s c [(answer, slack)]).bind fun s =>
        (closeAfterReply s c).bind fun s => resetClient { x with srv := s } c
  | .gopher item slack more =>
    (addReplies netMaxWritesPerEvent x.srv c ((item, slack) :: more)).bind fun s =>
      (resetClient { x with srv := s } c).bind fun x =>
        (closeAfterReply x.srv c).map fun s => { x with srv := s }
  | .command calls =>
    (acts netMaxWritesPerEvent x.srv (calls.map fun y => .reply y.1 y.2)).bind fun s =>
      resetClient { x with srv := s } c

/-- `processInputBuffer` does not look at the input of the client. -/
def Conn.ignored (conn : Conn) : Bool :=
  conn.blocked || conn.flags.closeAfterReply || conn.queued .close

/-- A request in the input of a client. -/
def request (x : Sessions) (c : ℕ) (r : ClientRequest) : Except Stop Sessions :=
  match x.srv.slot c with
  | .live conn => if conn.ignored then .ok x else execute netMaxWritesPerEvent x c r
  | _ => .ok x

/-- What happens in the event loop.  The connection of a client can be lost, and the
queue of clients with replies is served by the main thread or by the I/O threads. -/
inductive LoopEvent where
  | createClient (c : ℕ) (fd : ℤ)
  | request (c : ℕ) (r : ClientRequest)
  | freeClientAsync (c : ℕ)
  | sendReplyToClient (c : ℕ) (ws : List WriteResult)
  | handleClientsWithPendingWrites (ws : ℕ → List WriteResult) (fails : ℕ → Bool)
  | writeUsingThreads (ws : ℕ → List WriteResult) (fails : ℕ → Bool) (order : Schedule)
  | freeClientsInAsyncFreeQueue

/-- The part of an event that does not look at the input of a client. -/
def serverEvent (s : Server) : LoopEvent → Except Stop Server
  | .createClient c fd => act netMaxWritesPerEvent s (.createClient c fd)
  | .request _ _ => .ok s
  | .freeClientAsync c => act netMaxWritesPerEvent s (.freeClientAsync c)
  | .sendReplyToClient c ws => act netMaxWritesPerEvent s (.sendReplyToClient c ws)
  | .handleClientsWithPendingWrites ws fails =>
    handleClientsWithPendingWrites netMaxWritesPerEvent ws fails s
  | .writeUsingThreads ws fails order => writeUsingThreads netMaxWritesPerEvent ws fails order s
  | .freeClientsInAsyncFreeQueue => freeClientsInAsyncFreeQueue s

def loopEvent (x : Sessions) : LoopEvent → Except Stop Sessions
  | .request c r => request netMaxWritesPerEvent x c r
  | e => (serverEvent netMaxWritesPerEvent x.srv e).map fun s => { x with srv := s }

/-- An event, as a step of a run. -/
def loopStep (x : Sessions) (e : LoopEvent) : Option (Sessions × Unit) :=
  (loopEvent netMaxWritesPerEvent x e).toOption.map fun x => (x, ())

end

/-- A server without clients. -/
def Sessions.init (settings : Settings) : Sessions := ⟨.init settings, fun _ => false⟩

/-! ### On the way -/

/-- The client is queued for writing, or its socket is watched, or it is to be freed. -/
def Conn.onWay (conn : Conn) : Bool :=
  conn.queued .write || conn.events.writable || conn.queued .close

/-- The request flags its client. -/
def ClientRequest.closes : ClientRequest → Bool
  | .protocolError _ _ | .clientKill _ _ _ | .gopher _ _ _ => true
  | _ => false

/-- The client gets replies. -/
def Conn.answered (conn : Conn) : Bool :=
  !conn.flags.replyOff && !conn.flags.replySkip && 0 < conn.flags.fd

/-- When a request flags its client, the client gets replies, or it is on its way
already. -/
def LoopEvent.Fits (x : Sessions) : LoopEvent → Prop
  | .request c r =>
    r.closes → ∀ conn, x.srv.slot c = .live conn → conn.ignored = false → conn.answered ∨ conn.onWay
  | _ => True

/-- The client is the same, but its socket can be closed. -/
structure Conn.Alike (conn conn' : Conn) : Prop where
  isProtected_eq : conn'.isProtected = conn.isProtected
  replstate_eq : conn'.replstate = conn.replstate
  flags_eq : conn'.flags = { conn.flags with fd := conn'.flags.fd }
  gone : conn.flags.fd = -1 → conn'.flags.fd = -1

/-- What happens to a client: if it is flagged and on its way it stays so. -/
structure Conn.Forth (conn conn' : Conn) : Prop extends conn.Alike conn' where
  onWay : conn'.flags.fd ≠ -1 → conn.flags.closeAfterReply → conn.onWay → conn'.onWay

/-- The same for all clients. -/
def Server.Forth (s s' : Server) : Prop :=
  ∀ c conn', s'.slot c = .live conn' → ∃ conn, s.slot c = .live conn ∧ conn.Forth conn'

section Forth

variable {N : ℕ} {p : Prop} {s s' s'' : Server} {c : ℕ} {conn conn' conn'' : Conn}

theorem Conn.Forth.refl : conn.Forth conn := ⟨⟨rfl, rfl, rfl, id⟩, fun _ _ h => h⟩

theorem Conn.Alike.trans (h : conn.Alike conn') (h' : conn'.Alike conn'') : conn.Alike conn'' where
  isProtected_eq := h'.isProtected_eq.trans h.isProtected_eq
  replstate_eq := h'.replstate_eq.trans h.replstate_eq
  flags_eq := by rw [h'.flags_eq, h.flags_eq]
  gone := fun hgone => h'.gone (h.gone hgone)

theorem Conn.Forth.trans (h : conn.Forth conn') (h' : conn'.Forth conn'') : conn.Forth conn'' where
  toAlike := h.toAlike.trans h'.toAlike
  onWay := by
    intro hfd hclose hway
    have hclose' : conn'.flags.closeAfterReply := by
      rw [h.flags_eq]
      exact hclose
    exact h'.onWay hfd hclose' (h.onWay (fun hgone => hfd (h'.gone hgone)) hclose hway)

/-- The flags stay as they are. -/
theorem Conn.Forth.of_flags (hprot : conn'.isProtected = conn.isProtected)
    (hrepl : conn'.replstate = conn.replstate) (hflags : conn'.flags = conn.flags)
    (hway : conn.flags.fd ≠ -1 → conn.flags.closeAfterReply → conn.onWay → conn'.onWay) :
    conn.Forth conn' :=
  ⟨⟨hprot, hrepl, by rw [hflags], fun hgone => by rw [hflags, hgone]⟩, fun hfd =>
    hway (hflags ▸ hfd)⟩

theorem Server.Forth.refl : s.Forth s := fun _ conn hc => ⟨conn, hc, .refl⟩

theorem Server.Forth.trans (h : s.Forth s') (h' : s'.Forth s'') : s.Forth s'' := by
  intro c conn'' hc''
  obtain ⟨conn', hc', hforth'⟩ := h' c conn'' hc''
  obtain ⟨conn, hc, hforth⟩ := h c conn' hc'
  exact ⟨conn, hc, hforth.trans hforth'⟩

/-- Something is done for one client. -/
theorem Server.Forth.of_frame (hframe : ∀ d, d ≠ c → s'.slot d = s.slot d)
    (hc : s.slot c = .live conn) (hc' : ∀ conn', s'.slot c = .live conn' → conn.Forth conn') :
    s.Forth s' := by
  intro d conn' hd
  rcases eq_or_ne d c with rfl | hne
  · exact ⟨conn, hc, hc' conn' hd⟩
  · exact ⟨conn', (hframe d hne).symm.trans hd, .refl⟩

theorem Becomes.forth {k : Queue} (h : Becomes k c conn' s s') (hc : s.slot c = .live conn)
    (hforth : conn.Forth conn') :
    s.Forth s' := by
  refine .of_frame (h.touch False).frame hc fun conn₁ hc₁ => ?_
  obtain rfl : conn' = conn₁ := Slot.live.inj (h.live.symm.trans hc₁)
  exact hforth

/-- A client with a socket is to be freed then. -/
theorem onWay_closing (hfd : conn.flags.fd ≠ -1) : conn.closing.onWay := by
  rw [Conn.closing]
  split
  · rename_i h
    rcases Bool.or_eq_true_iff.mp h with h | h
    · simp [Conn.onWay, h]
    · exact absurd (conn.noSocket (.inl h)) hfd
  · simp [Conn.onWay]

theorem closing_forth : conn.Forth conn.closing := by
  refine .of_flags ?_ ?_ flags_closing fun hfd _ _ => onWay_closing hfd
  · rw [Conn.closing]
    split <;> rfl
  · rw [Conn.closing]
    split <;> rfl

/-! ### Writing -/

variable {ws : List WriteResult}

/-- When all is sent, a flagged client is freed. -/
theorem closes_of_writeToClient {f : ReplyFlags} {out : Output} {x : Output × Sds.Bytes × Bool}
    (h : Networking.writeToClient N f ws out = .ok x) (hclose : f.closeAfterReply)
    (hpending : clientHasPendingReplies x.1 = false) : x.2.2 = true := by
  obtain ⟨y, hloop, rfl⟩ := Jobs.map_eq_ok h
  split_ifs at hpending ⊢ with herr hleft
  · exact herr
  · exact absurd (hpending.symm.trans hleft) Bool.false_ne_true
  · exact hclose

variable {handlerInstalled : Bool} {x : Conn × Bool}

/-- After a write, a flagged client is to be freed, or there is more to write. -/
theorem written_cases (h : conn.written N ws handlerInstalled = .ok x) :
    ∃ out, (x = ((conn.sent out handlerInstalled).closing, false)) ∨
      (x = (conn.sent out handlerInstalled, true) ∧
        (conn.flags.closeAfterReply → clientHasPendingReplies out)) := by
  obtain ⟨⟨out, data, err⟩, hw, rfl⟩ := written_ok h
  refine ⟨out, ?_⟩
  cases err with
  | true => exact .inl rfl
  | false =>
    refine .inr ⟨rfl, fun hclose => ?_⟩
    by_contra hpending
    exact Bool.false_ne_true (closes_of_writeToClient hw hclose (eq_false_of_ne_true hpending))

theorem written_forth (h : conn.written N ws handlerInstalled = .ok x) : conn.Forth x.1 := by
  obtain ⟨out, rfl | ⟨rfl, hpending⟩⟩ := written_cases h
  · refine .of_flags closing_forth.isProtected_eq closing_forth.replstate_eq flags_closing
      fun hfd _ _ => ?_
    exact onWay_closing hfd
  · refine .of_flags rfl rfl rfl fun _ hclose hway => ?_
    -- the handler stays, since there is more to write
    have hevents : (conn.sent out handlerInstalled).events = conn.events :=
      if_neg (by simp [hpending hclose])
    rw [Conn.onWay, hevents]
    exact hway

/-- More is written later, or the client is freed. -/
theorem onWay_installed {barrier fails : Bool} (hfd : conn.flags.fd ≠ -1)
    (h : clientHasPendingReplies conn.out ∨ conn.onWay) :
    (conn.installed ⟨false, true, barrier⟩ fails).onWay := by
  rw [Conn.installed]
  split_ifs with hpending
  · exact onWay_closing hfd
  · simp [Conn.onWay, aeCreateFileEvent]
  · exact h.resolve_left hpending

theorem installed_kind {mask : Events} {fails : Bool} :
    (conn.installed mask fails).isProtected = conn.isProtected ∧
      (conn.installed mask fails).replstate = conn.replstate := by
  rw [Conn.installed]
  split_ifs
  · exact ⟨closing_forth.isProtected_eq, closing_forth.replstate_eq⟩
  · exact ⟨rfl, rfl⟩
  · exact ⟨rfl, rfl⟩

/-- A client was written to, and its handler was registered for what is left. -/
theorem installed_forth {barrier fails : Bool}
    (h : (conn.mark .write false).written N ws false = .ok x) :
    conn.Forth (x.1.installed ⟨false, true, barrier⟩ fails) := by
  have hx := written_forth h
  have hflags : x.1.flags = (conn.mark .write false).flags := flags_written h
  have hkind : (x.1.installed ⟨false, true, barrier⟩ fails).isProtected = _ ∧ _ := installed_kind
  refine .of_flags (hkind.1.trans hx.isProtected_eq) (hkind.2.trans hx.replstate_eq)
    (flags_installed.trans hflags)
    fun hfd hclose _ => ?_
  have hfd' : x.1.flags.fd ≠ -1 := by
    rw [hflags]
    exact hfd
  refine onWay_installed hfd' ?_
  obtain ⟨out, rfl | ⟨rfl, hpending⟩⟩ := written_cases h
  · exact .inr (onWay_closing hfd)
  · exact .inl (hpending hclose)

theorem threadedWrite_forth {ws : ℕ → List WriteResult} {fails : ℕ → Bool}
    (h : threadedWrite N ws fails c conn = .ok conn') : conn.Forth conn' := by
  obtain ⟨x, hw, rfl⟩ := Jobs.map_eq_ok h
  exact installed_forth hw

theorem directWrite_forth {fails barrier : Bool} (hprot : conn.isProtected = false)
    (h : conn.directWrite N ws fails barrier = .ok conn') : conn.Forth conn' := by
  rw [Conn.directWrite, if_neg (by simp [hprot])] at h
  obtain ⟨x, hw, rfl⟩ := Jobs.map_eq_ok h
  split_ifs with hok
  · exact installed_forth hw
  · obtain ⟨out, rfl | ⟨rfl, -⟩⟩ := written_cases hw
    · exact .of_flags closing_forth.isProtected_eq closing_forth.replstate_eq flags_closing
        fun hfd _ _ => onWay_closing hfd
    · exact absurd rfl hok

/-- The clients of the queue are served. -/
theorem Serves.forth {f : ℕ → Conn → Except Stop Conn} (h : Serves f s s')
    (hf : ∀ c conn conn', s.slot c = .live conn → f c conn = .ok conn' → conn.Forth conn') :
    s.Forth s' := by
  intro c conn' hc'
  by_cases hmem : c ∈ (s.queue .write).values
  · obtain ⟨conn, conn₁, hc, hrun, hc₁⟩ := onSlot_ok (h.each c hmem)
    obtain rfl : conn₁ = conn' := Slot.live.inj (hc₁.symm.trans hc')
    exact ⟨conn, hc, hf c conn conn₁ hc hrun⟩
  · exact ⟨conn', (h.others c hmem).symm.trans hc', .refl⟩

/-! ### Freeing -/

theorem unlinked_alike : conn.Alike conn.unlinked := by
  have hprot : conn.unlinked.isProtected = conn.isProtected := by
    show (if conn.flags.fd ≠ -1 then conn.closed else conn).isProtected = _
    split <;> rfl
  have hrepl : conn.unlinked.replstate = conn.replstate := by
    show (if conn.flags.fd ≠ -1 then conn.closed else conn).replstate = _
    split <;> rfl
  have hflags : conn.unlinked.flags = { conn.flags with fd := -1 } := by
    show (if conn.flags.fd ≠ -1 then conn.closed else conn).flags = _
    split
    · rfl
    · rename_i hfd
      rw [← not_not.mp hfd]
  exact ⟨hprot, hrepl, by rw [hflags], fun _ => fd_unlinked⟩

/-- A client that is freed has no socket then, or it is on its way. -/
theorem freeClient_ends (hwrite : Linked (s.queue .write) (s.flag .write))
    (hc : s.slot c = .live conn) (h : freeClient s c = .ok s') :
    (∀ d, d ≠ c → s'.slot d = s.slot d) ∧
      ∀ conn', s'.slot c = .live conn' → conn.Alike conn' ∧
      (conn'.flags.fd ≠ -1 → conn'.onWay) := by
  have hunlink := unlinkClient_cases hwrite hc
  have hcache := replicationCacheMaster_cases hwrite hc
  rw [freeClient, get_live hc, Except.bind] at h
  split_ifs at h
  · obtain ⟨s₁, hrun, hbecomes⟩ := freeClientAsync_spec hc
    obtain rfl : s₁ = s' := Except.ok.inj (hrun.symm.trans h)
    refine ⟨(hbecomes.touch False).frame, fun conn' hc' => ?_⟩
    obtain rfl : conn.closing = conn' := Slot.live.inj (hbecomes.live.symm.trans hc')
    refine ⟨closing_forth.toAlike, fun hfd => onWay_closing ?_⟩
    rwa [flags_closing] at hfd
  · obtain ⟨s₁, hrun, htouch, hlive, -⟩ | ⟨herr, -⟩ := hcache
    · obtain rfl : s₁ = s' := Except.ok.inj (hrun.symm.trans h)
      refine ⟨(htouch False).frame, fun conn' hc' => ?_⟩
      obtain rfl : s.cacheMaster.apply conn.unlinked = conn' :=
        Slot.live.inj (hlive.symm.trans hc')
      refine ⟨⟨?_, ?_, ?_, fun _ => fd_cached s⟩, fun hfd => absurd (fd_cached s) hfd⟩
      · rw [s.cacheMaster.isProtected_eq, unlinked_alike.isProtected_eq]
      · rw [s.cacheMaster.replstate_eq, unlinked_alike.replstate_eq]
      · rw [s.cacheMaster.flags_eq]
        exact unlinked_alike.flags_eq
    · cases herr.symm.trans h
  · obtain ⟨s₁, hrun, htouch, hlive, -⟩ | ⟨herr, -⟩ := hunlink
    · rw [hrun] at h
      have h : (unqueue .close s₁ c).map _ = .ok s' := h
      rcases unqueue_cases (k := .close) hlive with ⟨s₂, hrun₂, htouch₂, -, -⟩ | ⟨herr, -⟩
      · rw [hrun₂] at h
        obtain rfl := Except.ok.inj h
        refine ⟨fun d hd => ?_, fun conn' hc' => ?_⟩
        · show update s₂.slot c .freed d = _
          rw [update_of_ne hd]
          exact ((htouch False).trans (htouch₂ False)).frame d hd
        · have hc' : update s₂.slot c .freed c = .live conn' := hc'
          rw [update_self] at hc'
          cases hc'
      · rw [herr] at h
        cases h
    · rw [herr] at h
      cases h

theorem freeClient_forth (hs : s.Ready) (hc : s.slot c = .live conn) (h : freeClient s c = .ok s') :
    s.Forth s' := by
  obtain ⟨hframe, hends⟩ := freeClient_ends (hs .write (by decide)).linked hc h
  exact .of_frame hframe hc fun conn' hc' =>
    ⟨(hends conn' hc').1, fun hfd _ _ => (hends conn' hc').2 hfd⟩

/-- A turn of the loop, for the first client of the queue. -/
theorem freeFirst_forth (hs : s.Ready) {i : ℕ} (h : freeFirst s i = .ok s') : s.Forth s' := by
  rw [freeFirst] at h
  rcases hfirst : listFirst (s.queue .close) with _ | ⟨node, c⟩
  · rw [hfirst] at h
    exact Except.ok.inj h ▸ .refl
  rw [hfirst] at h
  have hmem : (node, c) ∈ (s.queue .close).nodes := List.mem_of_head? hfirst
  obtain ⟨conn, hc, -⟩ := (hs .close (by decide)).live hmem
  have hwrite : Linked ((s.set c (conn.mark .close false)).queue .write)
      ((s.set c (conn.mark .close false)).flag .write) := by
    rw [flag_set_of_eq hc (queued_mark_of_ne (by decide))]
    exact (hs .write (by decide)).linked
  dsimp only at h
  rw [get_live hc, Except.bind] at h
  obtain ⟨s₁, hrun, h⟩ := Jobs.bind_eq_ok h
  obtain ⟨hframe, hends⟩ := freeClient_ends hwrite slot_set_self hrun
  -- the last line of the turn changes only the queue
  have hslot : s'.slot = s₁.slot := by
    split at h
    · cases h
    · exact Except.ok.inj h ▸ rfl
  refine .of_frame (fun d hd => ?_) hc fun conn' hc' => ?_
  · rw [hslot, hframe d hd, slot_set_of_ne hd]
  · obtain ⟨halike, hway⟩ := hends conn' (hslot ▸ hc')
    exact ⟨⟨halike.isProtected_eq, halike.replstate_eq, halike.flags_eq, halike.gone⟩,
      fun hfd _ _ => hway hfd⟩

theorem freeClientsInAsyncFreeQueue_forth (hs : s.Ready)
    (h : freeClientsInAsyncFreeQueue s = .ok s') : s.Forth s' := by
  have hloop : ∀ (l : List ℕ) (s s' : Server), s.Ready → l.foldlM freeFirst s = .ok s' →
      s.Forth s' := by
    intro l
    induction l with
    | nil => exact fun s s' _ h => Except.ok.inj h ▸ .refl
    | cons i l ih =>
      intro s s' hs h
      have hsane := freeFirst_sane hs i
      obtain ⟨s₁, hrun, h⟩ := Jobs.bind_eq_ok h
      rw [hrun] at hsane
      exact (freeFirst_forth hs hrun).trans
        (ih s₁ s' (Server.Later.ready (Server.Next.toLater hsane) hs) h)
  obtain ⟨s₁, hrun, h⟩ := Jobs.bind_eq_ok h
  split_ifs at h
  exact Except.ok.inj h ▸ hloop _ s s₁ hs hrun

/-! ### Replies -/

/-- Replies are added to a client. -/
structure Conn.Added (conn conn' : Conn) : Prop where
  isProtected_eq : conn'.isProtected = conn.isProtected
  replstate_eq : conn'.replstate = conn.replstate
  flags_eq : conn'.flags = conn.flags
  onWay : conn.onWay → conn'.onWay

theorem Conn.Added.refl : conn.Added conn := ⟨rfl, rfl, rfl, id⟩

theorem Conn.Added.trans (h : conn.Added conn') (h' : conn'.Added conn'') : conn.Added conn'' :=
  ⟨h'.isProtected_eq.trans h.isProtected_eq, h'.replstate_eq.trans h.replstate_eq,
    h'.flags_eq.trans h.flags_eq, fun hway => h'.onWay (h.onWay hway)⟩

theorem Conn.Added.forth (h : conn.Added conn') : conn.Forth conn' :=
  .of_flags h.isProtected_eq h.replstate_eq h.flags_eq fun _ _ => h.onWay

theorem added_out (out : Output) : conn.Added { conn with out := out } := ⟨rfl, rfl, rfl, id⟩

theorem scheduled_added : conn.Added conn.scheduled := by
  rw [Conn.scheduled]
  split
  · exact ⟨rfl, rfl, rfl, fun _ => by simp [Conn.onWay]⟩
  · exact .refl

/-- No client of scripts or modules, no replica and no master. -/
structure Conn.Plain (conn : Conn) : Prop where
  isProtected_eq : conn.isProtected = false
  replstate_eq : conn.replstate = none
  lua_eq : conn.flags.lua = false
  module_eq : conn.flags.module = false
  master_eq : conn.flags.master = false

theorem Conn.Plain.prepared_iff (h : conn.Plain) :
    Networking.prepareClientToWrite conn.flags = conn.answered := by
  rw [Networking.prepareClientToWrite, Conn.answered, h.lua_eq, h.module_eq, h.master_eq]
  cases conn.flags.replyOff <;> cases conn.flags.replySkip <;> rfl

/-- The client that gets a reply is on its way, and one that does not is left alone. -/
theorem prepareClientToWrite_added (hc : s.slot c = .live conn) (hplain : conn.Plain)
    (hserved : conn.Served) :
    ∃ s' conn₁ ok, prepareClientToWrite s c = .ok (s', ok) ∧ Becomes .write c conn₁ s s' ∧
      conn.Added conn₁ ∧
      (conn.answered → conn₁.onWay) ∧ (conn.answered = false → conn₁ = conn) := by
  rw [prepareClientToWrite, get_live hc, Except.bind,
    if_neg (by simp [hplain.lua_eq, hplain.module_eq]), hplain.prepared_iff]
  split_ifs with hanswered hpending
  · rw [Bool.not_eq_true'] at hanswered
    exact ⟨s, conn, false, rfl, .refl hc, .refl, fun h => absurd h (by simp [hanswered]),
      fun _ => rfl⟩
  · obtain ⟨s', hrun, hbecomes⟩ := clientInstallWriteHandler_spec hc
    refine ⟨s', conn.scheduled, true, by rw [hrun, Except.map], hbecomes, scheduled_added,
      fun _ => ?_, fun h => ?_⟩
    · simp [Conn.onWay, queued_scheduled hplain.replstate_eq]
    · exact absurd h (by simpa using hanswered)
  · have hfd : conn.flags.fd ≠ -1 := by
      simp only [Conn.answered, Bool.not_eq_true', Bool.not_eq_false, Bool.and_eq_true,
        decide_eq_true_eq] at hanswered
      omega
    refine ⟨s, conn, true, rfl, .refl hc, .refl, fun _ => ?_, fun h =>
      absurd h (by simpa using hanswered)⟩
    have hway := hserved hfd hplain.isProtected_eq hplain.replstate_eq (by simpa using hpending)
    simpa [Conn.onWay, or_assoc] using hway

theorem reply_addReplyProto {bytes : Sds.Bytes} {slack : ℕ} (hc : s.slot c = .live conn)
    (hplain : conn.Plain) (hserved : conn.Served)
    (h : reply N s c (.addReplyProto bytes slack) = .ok s') :
    ∃ conn', (∀ d, d ≠ c → s'.slot d = s.slot d) ∧ s'.slot c = .live conn' ∧ conn.Added conn' ∧
      (conn.answered → conn'.onWay) ∧ (conn.answered = false → conn'.onWay = conn.onWay) := by
  obtain ⟨s₁, conn₁, ok, hrun, hbecomes, hadded, hanswered, hleft⟩ :=
    prepareClientToWrite_added hc hplain hserved
  have h : (prepareClientToWrite s c).bind _ = .ok s' := h
  rw [hrun, Except.bind, replaceOutput, get_live hbecomes.live] at h
  obtain rfl := Except.ok.inj h
  refine ⟨_, fun d hd => ?_, slot_set_self, hadded.trans (added_out _), hanswered, fun hno => ?_⟩
  · rw [slot_set_of_ne hd]
    exact (hbecomes.touch False).frame d hd
  · rw [hleft hno]
    rfl

theorem replaceOutput_forth {call : ReplyCall} (hc : s.slot c = .live conn)
    (h : replaceOutput N s c call = .ok s') :
    s.Forth s' := by
  rw [replaceOutput, get_live hc, Except.bind] at h
  obtain ⟨x, -, rfl⟩ := Jobs.map_eq_ok h
  have hset : Becomes .write c { conn with out := x.1 } s (s.set c { conn with out := x.1 }) :=
    .set hc rfl
  exact hset.forth hc (added_out x.1).forth

theorem writeToClient_forth (hc : s.slot c = .live conn)
    (h : (writeToClient N s c ws handlerInstalled).map Prod.fst = .ok s') : s.Forth s' := by
  have hspec := writeToClient_spec (N := N) ws handlerInstalled hc
  rcases hw : conn.written N ws handlerInstalled with e | x
  · rw [hw] at hspec
    rw [hspec] at h
    cases h
  · rw [hw] at hspec
    obtain ⟨s₁, hrun, hbecomes⟩ := hspec
    rw [hrun] at h
    exact Except.ok.inj h ▸ hbecomes.forth hc (written_forth hw)

theorem reply_forth {call : ReplyCall} (hc : s.slot c = .live conn) (hplain : conn.Plain)
    (hserved : conn.Served) (h : reply N s c call = .ok s') : s.Forth s' := by
  have hadd : ∀ call, ((prepareClientToWrite s c).bind fun x => replaceOutput N x.1 c call)
      = .ok s' → s.Forth s' := by
    intro call h
    obtain ⟨s₁, conn₁, ok, hrun, hbecomes, hadded, -⟩ :=
      prepareClientToWrite_added hc hplain hserved
    rw [hrun, Except.bind] at h
    exact (hbecomes.forth hc hadded.forth).trans (replaceOutput_forth hbecomes.live h)
  cases call with
  | writeToClient ws => exact writeToClient_forth hc h
  | setDeferredAggregateLen node length tag slack => exact replaceOutput_forth hc h
  | addReply obj slack => exact hadd _ h
  | addReplySds bytes slack => exact hadd _ h
  | addReplyProto bytes slack => exact hadd _ h
  | addReplyDeferredLen node => exact hadd _ h

/-! ### The invariant -/

/-- The flagged clients are on their way. -/
structure Server.Closes (s : Server) : Prop where
  sound : s.Sound
  plain : ∀ c conn, s.slot c = .live conn → conn.Plain
  onWay : ∀ c conn, s.slot c = .live conn → conn.flags.fd ≠ -1 →
    conn.flags.closeAfterReply → conn.onWay

theorem Conn.Alike.plain (h : conn.Alike conn') (hplain : conn.Plain) : conn'.Plain := by
  refine ⟨h.isProtected_eq.trans hplain.isProtected_eq,
    h.replstate_eq.trans hplain.replstate_eq, ?_, ?_, ?_⟩
  · rw [h.flags_eq]
    exact hplain.lua_eq
  · rw [h.flags_eq]
    exact hplain.module_eq
  · rw [h.flags_eq]
    exact hplain.master_eq

theorem Server.Closes.forth (hs : s.Closes) (hsound : s'.Sound) (h : s.Forth s') : s'.Closes where
  sound := hsound
  plain := by
    intro c conn' hc'
    obtain ⟨conn, hc, hforth⟩ := h c conn' hc'
    exact hforth.toAlike.plain (hs.plain c conn hc)
  onWay := by
    intro c conn' hc' hfd hclose
    obtain ⟨conn, hc, hforth⟩ := h c conn' hc'
    rw [hforth.flags_eq] at hclose
    exact hforth.onWay hfd hclose (hs.onWay c conn hc (fun hgone => hfd (hforth.gone hgone)) hclose)

theorem Server.Sound.of_sane {x : Except Stop Server} (hs : s.Sound) (h : Sane p s x)
    (hx : x = .ok s') : s'.Sound := by
  subst hx
  exact Server.Later.sound (Server.Next.toLater h) hs

theorem act_closes {a : Act} (hs : s.Closes) (hforth : ∀ s', act N s a = .ok s' → s.Forth s')
    (h : act N s a = .ok s') :
    s'.Closes :=
  hs.forth (hs.sound.of_sane (act_sane (p := True) a hs.sound.1 fun _ => trivial) h) (hforth s' h)

theorem onLive_forth {f : Conn → Except Stop Server}
    (hf : ∀ conn, s.slot c = .live conn → f conn = .ok s' → s.Forth s')
    (h : s.onLive c f = .ok s') : s.Forth s' := by
  rw [Server.onLive] at h
  split at h
  · exact hf _ ‹_› h
  · exact Except.ok.inj h ▸ .refl

/-- Commands that reply to clients or free them. -/
theorem acts_closes {l : List Act}
    (hl : ∀ a ∈ l, ∀ s s', s.Closes → act N s a = .ok s' → s.Forth s') (hs : s.Closes)
    (h : acts N s l = .ok s') : s'.Closes ∧ s.Forth s' := by
  induction l generalizing s with
  | nil => exact Except.ok.inj h ▸ ⟨hs, .refl⟩
  | cons a l ih =>
    obtain ⟨s₁, hrun, h⟩ := Jobs.bind_eq_ok h
    have hforth := hl a List.mem_cons_self s s₁ hs hrun
    have hs₁ := act_closes hs (fun s' => hl a List.mem_cons_self s s' hs) hrun
    obtain ⟨hs', hforth'⟩ := ih (fun a ha => hl a (List.mem_cons_of_mem _ ha)) hs₁ h
    exact ⟨hs', hforth.trans hforth'⟩

theorem create_closes {fd : ℤ} (hs : s.Closes)
    (h : act N s (.createClient c fd) = .ok s') : s'.Closes := by
  have hsound : s'.Sound := hs.sound.of_sane (act_sane (p := True) _ hs.sound.1 fun _ => trivial) h
  obtain ⟨h₀, rfl⟩ : ∃ h₀, s.create c (.fresh (freshFlags fd) h₀) = s' := ⟨_, Except.ok.inj h⟩
  have hnew : ∀ d conn, (s.create c (.fresh (freshFlags fd) h₀)).slot d = .live conn →
      s.slot d = .live conn ∨ ∃ h, conn = .fresh (freshFlags fd) h := by
    intro d conn hd
    rw [Server.create] at hd
    split at hd
    · rcases eq_or_ne d c with rfl | hne
      · exact .inr ⟨_, (Slot.live.inj (slot_set_self.symm.trans hd)).symm⟩
      · exact .inl ((slot_set_of_ne hne).symm.trans hd)
    · exact .inl hd
  refine ⟨hsound, fun d conn hd => ?_, fun d conn hd hfd hclose => ?_⟩
  · obtain hold | ⟨_, rfl⟩ := hnew d conn hd
    · exact hs.plain d conn hold
    · exact ⟨rfl, rfl, rfl, rfl, rfl⟩
  · obtain hold | ⟨_, rfl⟩ := hnew d conn hd
    · exact hs.onWay d conn hold hfd hclose
    · exact absurd hclose Bool.false_ne_true

/-- The flags of a client are changed; if it is flagged now, it is on its way. -/
theorem changeFlags_closes {g : ReplyFlags → ReplyFlags} (hs : s.Closes)
    (h : changeFlags g s c = .ok s') (hmaster : ∀ f, (g f).master = f.master)
    (hclose : ∀ conn, s.slot c = .live conn → conn.flags.fd ≠ -1 → (g conn.flags).closeAfterReply →
      conn.flags.closeAfterReply ∨ conn.onWay) :
    s'.Closes ∧ ∃ conn, s.slot c = .live conn ∧
      s' = s.set c (conn.withFlags (g conn.flags) conn.blocked) := by
  rw [changeFlags] at h
  rcases hget : s.get c with e | conn
  · rw [hget] at h
    cases h
  have hc : s.slot c = .live conn := by
    rw [Server.get] at hget
    split at hget
    · rw [‹s.slot c = _›, Except.ok.inj hget]
    · cases hget
  rw [hget] at h
  obtain rfl := Except.ok.inj h
  have hnext : s.Next True (s.set c (conn.withFlags (g conn.flags) conn.blocked)) :=
    next_set hc rfl id id
  refine ⟨⟨hnext.toLater.sound hs.sound, fun d conn' hd => ?_, fun d conn' hd hfd hflag => ?_⟩,
    conn, hc, rfl⟩
  · rcases eq_or_ne d c with rfl | hne
    · obtain rfl := Slot.live.inj (slot_set_self.symm.trans hd)
      have hplain := hs.plain d conn hc
      exact ⟨hplain.isProtected_eq, hplain.replstate_eq, hplain.lua_eq, hplain.module_eq,
        (hmaster conn.flags).trans hplain.master_eq⟩
    · exact hs.plain d conn' ((slot_set_of_ne hne).symm.trans hd)
  · rcases eq_or_ne d c with rfl | hne
    · obtain rfl := Slot.live.inj (slot_set_self.symm.trans hd)
      exact (hclose conn hc hfd hflag).elim (hs.onWay d conn hc hfd) id
    · exact hs.onWay d conn' ((slot_set_of_ne hne).symm.trans hd) hfd hflag

/-! ### Requests keep it -/

theorem answered_of_added (h : conn.Added conn') : conn'.answered = conn.answered := by
  rw [Conn.answered, Conn.answered, h.flags_eq]

theorem addReplies_closes {l : List (Sds.Bytes × ℕ)} (hs : s.Closes) (hc : s.slot c = .live conn)
    (h : addReplies N s c l = .ok s') :
    s'.Closes ∧ ∃ conn', (∀ d, d ≠ c → s'.slot d = s.slot d) ∧ s'.slot c = .live conn' ∧
      conn.Added conn' ∧
      (l ≠ [] → conn.answered → conn'.onWay) ∧
      (conn.answered = false → conn'.onWay = conn.onWay) := by
  induction l generalizing s conn with
  | nil =>
    obtain rfl := Except.ok.inj h
    exact ⟨hs, conn, fun _ _ => rfl, hc, .refl, nofun, fun _ => rfl⟩
  | cons y l ih =>
    obtain ⟨s₁, hrun, h⟩ := Jobs.bind_eq_ok h
    have hplain := hs.plain c conn hc
    have hserved := hs.sound.2 c conn hc
    obtain ⟨conn₁, hframe₁, hc₁, hadded₁, hway₁, hleft₁⟩ :=
      reply_addReplyProto hc hplain hserved hrun
    have hs₁ : s₁.Closes :=
      hs.forth (hs.sound.of_sane (p := True) (reply_sane _ hc) hrun)
        (reply_forth hc hplain hserved hrun)
    obtain ⟨hs', conn', hframe, hc', hadded, -, hleft⟩ := ih hs₁ hc₁ h
    rw [answered_of_added hadded₁] at hleft
    refine ⟨hs', conn', fun d hd => (hframe d hd).trans (hframe₁ d hd), hc', hadded₁.trans hadded,
      fun _ hanswered => hadded.onWay (hway₁ hanswered), fun hno => (hleft hno).trans (hleft₁ hno)⟩

/-- The client that is flagged has to be on its way. -/
theorem closeAfterReply_closes (hs : s.Closes) (hway : ∀ conn, s.slot c = .live conn → conn.onWay)
    (h : closeAfterReply s c = .ok s') : s'.Closes :=
  (changeFlags_closes hs h (fun _ => rfl) fun conn hc _ _ => .inr (hway conn hc)).1

theorem resetClient_closes {x x' : Sessions} (hs : x.srv.Closes) (h : resetClient x c = .ok x') :
    x'.srv.Closes ∧ ∃ conn, x.srv.slot c = .live conn ∧
      x'.srv = x.srv.set c (conn.withFlags { conn.flags with replySkip := x.skipNext c }
        conn.blocked) := by
  obtain ⟨s₁, hrun, rfl⟩ := Jobs.map_eq_ok h
  exact changeFlags_closes hs hrun (fun _ => rfl) fun _ _ _ hclose => .inl hclose

/-- Other clients are freed. -/
theorem freeOthers_closes {others : List ℕ} (hs : s.Closes)
    (h : acts N s ((others.filter (· ≠ c)).map .freeClient) = .ok s') :
    s'.Closes ∧ s'.slot c = s.slot c := by
  have hfree : ∀ d s s', s.Closes → act N s (.freeClient d) = .ok s' → s.Forth s' :=
    fun d s s' hs h =>
    onLive_forth (fun conn hd h => freeClient_forth hs.sound.1 hd h) h
  refine ⟨(acts_closes (fun a ha s s' => ?_) hs h).1, ?_⟩
  · obtain ⟨d, -, rfl⟩ := List.mem_map.mp ha
    exact hfree d s s'
  · induction others generalizing s with
    | nil => exact congrArg (Server.slot · c) (Except.ok.inj h).symm
    | cons d others ih =>
      by_cases hd : d ≠ c
      · rw [List.filter_cons_of_pos (by simpa using hd), List.map_cons, acts, List.foldlM_cons] at h
        obtain ⟨s₁, hrun, h⟩ := Jobs.bind_eq_ok h
        have hs₁ : s₁.Closes := act_closes hs (fun s' => hfree d s s' hs) hrun
        refine (ih hs₁ h).trans ?_
        have hrun : s.onLive d _ = .ok s₁ := hrun
        rw [Server.onLive] at hrun
        split at hrun
        · exact (freeClient_ends (hs.sound.1 .write (by decide)).linked ‹_› hrun).1 c hd.symm
        · exact congrArg (Server.slot · c) (Except.ok.inj hrun).symm
      · rw [List.filter_cons_of_neg (by simpa using hd)] at h
        exact ih hs h

/-- A request of a client that is not ignored. -/
theorem execute_closes {x x' : Sessions} {r : ClientRequest} (hs : x.srv.Closes)
    (hc : x.srv.slot c = .live conn) (hfits : r.closes → conn.answered ∨ conn.onWay)
    (h : execute N x c r = .ok x') : x'.srv.Closes := by
  cases r with
  | protocolError err slack =>
    obtain ⟨s₁, hreplies, h⟩ := Jobs.bind_eq_ok h
    obtain ⟨s₂, hflag, rfl⟩ := Jobs.map_eq_ok h
    obtain ⟨hs₁, conn₁, -, hc₁, hadded, hway, -⟩ := addReplies_closes hs hc hreplies
    refine closeAfterReply_closes hs₁ (fun conn' hc' => ?_) hflag
    obtain rfl : conn₁ = conn' := Slot.live.inj (hc₁.symm.trans hc')
    exact (hfits rfl).elim (hway (by simp [errorReply])) hadded.onWay
  | clientReplyOn ok slack =>
    obtain ⟨s₁, hflags, h⟩ := Jobs.bind_eq_ok h
    obtain ⟨s₂, hreplies, hreset⟩ := Jobs.bind_eq_ok h
    obtain ⟨hs₁, conn₀, hc₀, rfl⟩ := changeFlags_closes hs hflags (fun _ => rfl) fun _ _ _ hclose =>
      .inl hclose
    obtain ⟨hs₂, -⟩ := addReplies_closes hs₁ slot_set_self hreplies
    exact (resetClient_closes hs₂ hreset).1
  | clientReplyOff =>
    obtain ⟨s₁, hflags, h⟩ := Jobs.bind_eq_ok h
    have hs₁ := (changeFlags_closes hs hflags (fun _ => rfl) fun _ _ _ hclose => .inl hclose).1
    exact (resetClient_closes hs₁ h).1
  | clientReplySkip =>
    obtain ⟨conn₀, -, h⟩ := Jobs.bind_eq_ok h
    refine (resetClient_closes ?_ h).1
    split
    · exact hs
    · exact hs
  | clientKill others answer slack =>
    obtain ⟨s₁, hfree, h⟩ := Jobs.bind_eq_ok h
    obtain ⟨s₂, hreplies, h⟩ := Jobs.bind_eq_ok h
    obtain ⟨s₃, hflag, h⟩ := Jobs.bind_eq_ok h
    obtain ⟨hs₁, hself⟩ := freeOthers_closes hs hfree
    have hc₁ : s₁.slot c = .live conn := hself.trans hc
    obtain ⟨hs₂, conn₂, -, hc₂, hadded, hway, -⟩ := addReplies_closes hs₁ hc₁ hreplies
    have hs₃ : s₃.Closes := by
      refine closeAfterReply_closes hs₂ (fun conn' hc' => ?_) hflag
      obtain rfl : conn₂ = conn' := Slot.live.inj (hc₂.symm.trans hc')
      exact (hfits rfl).elim (hway nofun) hadded.onWay
    exact (resetClient_closes hs₃ h).1
  | gopher item slack more =>
    obtain ⟨s₁, hreplies, h⟩ := Jobs.bind_eq_ok h
    obtain ⟨x₂, hreset, h⟩ := Jobs.bind_eq_ok h
    obtain ⟨s₃, hflag, rfl⟩ := Jobs.map_eq_ok h
    obtain ⟨hs₁, conn₁, -, hc₁, hadded, hway, -⟩ := addReplies_closes hs hc hreplies
    obtain ⟨hs₂, conn₂, hc₂, hsrv⟩ := resetClient_closes hs₁ hreset
    obtain rfl : conn₁ = conn₂ := Slot.live.inj (hc₁.symm.trans hc₂)
    refine closeAfterReply_closes hs₂ (fun conn' hc' => ?_) hflag
    rw [hsrv] at hc'
    obtain rfl := Slot.live.inj (slot_set_self.symm.trans hc')
    exact (hfits rfl).elim (hway nofun) hadded.onWay
  | command calls =>
    obtain ⟨s₁, hcalls, h⟩ := Jobs.bind_eq_ok h
    have hreply : ∀ a ∈ calls.map fun y => Act.reply y.1 y.2, ∀ s s', s.Closes →
        act N s a = .ok s' → s.Forth s' := by
      intro a ha s s' hs h
      obtain ⟨y, -, rfl⟩ := List.mem_map.mp ha
      exact onLive_forth (fun conn hc h => reply_forth hc (hs.plain y.1 conn hc)
        (hs.sound.2 y.1 conn hc) h) h
    exact (resetClient_closes (acts_closes hreply hs hcalls).1 h).1

/-! ### Runs -/

theorem serverEvent_closes {e : LoopEvent} (hs : s.Closes)
    (h : serverEvent N s e = .ok s') : s'.Closes := by
  cases e with
  | createClient c fd => exact create_closes (N := N) hs h
  | request c r => exact Except.ok.inj h ▸ hs
  | freeClientAsync c =>
    have h : act N s (.freeClientAsync c) = .ok s' := h
    refine act_closes hs (fun s' h => ?_) h
    refine onLive_forth (fun conn hc h => ?_) h
    obtain ⟨s₁, hrun, hbecomes⟩ := freeClientAsync_spec hc
    obtain rfl : s₁ = s' := Except.ok.inj (hrun.symm.trans h)
    exact hbecomes.forth hc closing_forth
  | sendReplyToClient c ws =>
    have h : act N s (.sendReplyToClient c ws) = .ok s' := h
    refine act_closes hs (fun s' h => ?_) h
    exact onLive_forth (fun conn hc h => writeToClient_forth hc h) h
  | handleClientsWithPendingWrites ws fails =>
    have hserves := handleClientsWithPendingWrites_serves N ws fails (hs.sound.1 .write (by decide))
    have h : handleClientsWithPendingWrites N ws fails s = .ok s' := h
    rw [h] at hserves
    refine hs.forth (hs.sound.of_sane (p := True) (handleClientsWithPendingWrites_sane
      hs.sound.1) h) (hserves.forth ?_)
    exact fun c conn conn' hc hrun => directWrite_forth (hs.plain c conn hc).isProtected_eq hrun
  | writeUsingThreads ws fails order =>
    have hserves := writeUsingThreads_serves N ws fails order (hs.sound.1 .write (by decide))
    have h : writeUsingThreads N ws fails order s = .ok s' := h
    rw [h] at hserves
    exact hs.forth (writeUsingThreads_sound hs.sound h)
      (hserves.forth fun c conn conn' hc hrun => threadedWrite_forth hrun)
  | freeClientsInAsyncFreeQueue =>
    exact hs.forth (step_sound (N := N) (a := .freeClientsInAsyncFreeQueue) hs.sound h)
      (freeClientsInAsyncFreeQueue_forth hs.sound.1 h)

theorem loopStep_closes {x x' : Sessions} {e : LoopEvent} {o : Unit} (hs : x.srv.Closes)
    (he : e.Fits x) (h : loopStep N x e = some (x', o)) : x'.srv.Closes := by
  have h : loopEvent N x e = .ok x' := by
    rw [loopStep] at h
    rcases hrun : loopEvent N x e with err | x₁
    · rw [hrun] at h
      cases h
    · rw [hrun] at h
      obtain ⟨rfl, -⟩ := Prod.mk.inj (Option.some.inj h)
      rfl
  cases e with
  | request c r =>
    have h : request N x c r = .ok x' := h
    rw [request] at h
    split at h
    · rename_i conn hc
      split_ifs at h with hignored
      · exact Except.ok.inj h ▸ hs
      · exact execute_closes hs hc (fun hcloses => he hcloses conn hc
          (eq_false_of_ne_true hignored)) h
    · exact Except.ok.inj h ▸ hs
  | _ =>
    rw [loopEvent.eq_2 _ _ _ fun _ _ heq => LoopEvent.noConfusion heq] at h
    obtain ⟨s', hrun, rfl⟩ := Jobs.map_eq_ok h
    exact serverEvent_closes hs hrun

theorem init_closes (settings : Settings) : (Sessions.init settings).srv.Closes := by
  have hunused : ∀ c conn, (Sessions.init settings).srv.slot c ≠ .live conn :=
    fun c conn h => by cases h
  exact ⟨init_sound settings, fun c conn hc => absurd hc (hunused c conn), fun c conn hc =>
    absurd hc (hunused c conn)⟩

/-- **A client that is to be closed is on its way.**  In a run in which no client is
flagged while its replies are suppressed, unless it is on its way already, every client
that is connected and flagged is in `clients_pending_write`, or its socket is watched, or
it is in `clients_to_close`. -/
theorem closing_client_on_its_way (N : ℕ) (settings : Settings) (events : List LoopEvent)
    (hfits : Runs.Meets (loopStep N) (fun x e => e.Fits x) (.init settings) events) (x : Sessions)
    (os : List Unit) (hrun : Runs.run (loopStep N) (.init settings) events = some (x, os)) (c : ℕ)
    (conn : Conn) (hc : x.srv.slot c = .live conn) (hfd : conn.flags.fd ≠ -1)
    (hclose : conn.flags.closeAfterReply) :
    c ∈ (x.srv.queue .write).values ∨ conn.events.writable ∨ c ∈ (x.srv.queue .close).values := by
  have hs : x.srv.Closes :=
    Runs.run_safe (fun _ _ _ _ hs he h => loopStep_closes hs he h) (init_closes settings) hfits hrun
  have hway := hs.onWay c conn hc hfd hclose
  rw [Conn.onWay, Bool.or_eq_true, Bool.or_eq_true, or_assoc] at hway
  have hready := hs.sound.1
  rcases hway with hwrite | hevent | hqueued
  · exact .inl ((hready .write (by decide)).mem_iff.mpr ((flag_live hc).trans hwrite))
  · exact .inr (.inl hevent)
  · exact .inr (.inr ((hready .close (by decide)).mem_iff.mpr ((flag_live hc).trans hqueued)))

end Forth

/-- A client turns its replies off and then sends what is no request. -/
def quietError : List LoopEvent :=
  [.createClient 0 7, .request 0 .clientReplyOff, .request 0 (.protocolError [63] fun _ => 0)]

/-- It is flagged, and nothing will close it. -/
theorem closing_client_left :
    ∃ x os conn, Runs.run (loopStep 65536) (.init ⟨false, 1, false, false, false, false, .emptying⟩)
      quietError = some (x, os) ∧
      x.srv.slot 0 = .live conn ∧ conn.flags.fd ≠ -1 ∧ conn.flags.closeAfterReply ∧
      ¬ (0 ∈ (x.srv.queue .write).values ∨ conn.events.writable ∨
        0 ∈ (x.srv.queue .close).values) :=
  ⟨_, _, _, rfl, rfl, by decide +kernel, by decide +kernel, by decide +kernel⟩

/-- A client that gets its replies sends what is no request. -/
theorem closing_client_on_its_way_error :
    ∃ x os conn, Runs.run (loopStep 65536) (.init ⟨false, 1, false, false, false, false, .emptying⟩)
        [.createClient 0 7, .request 0 (.protocolError [63] fun _ => 0)] = some (x, os) ∧
      x.srv.slot 0 = .live conn ∧ conn.flags.closeAfterReply ∧
      (0 ∈ (x.srv.queue .write).values ∨ conn.events.writable ∨
        0 ∈ (x.srv.queue .close).values) := by
  refine ⟨_, _, _, rfl, rfl, by decide +kernel, ?_⟩
  refine closing_client_on_its_way 65536 ⟨false, 1, false, false, false, false, .emptying⟩
    [.createClient 0 7, .request 0 (.protocolError [63] fun _ => 0)] ?_ _ _ rfl 0 _ rfl
      (by decide +kernel) (by decide +kernel)
  refine ⟨trivial, fun x₁ o₁ h₁ => ⟨fun _ conn hc _ => .inl ?_, fun _ _ _ => trivial⟩⟩
  obtain ⟨rfl, -⟩ := Prod.mk.inj (Option.some.inj h₁)
  obtain rfl := Slot.live.inj hc
  decide +kernel

end ClientQueues
