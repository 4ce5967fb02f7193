/-
Runs of the queues of clients.

A run is any list of commands and of calls of the handlers of the event loop.  Two
things are said about it:

* `no_reply_forgotten` — a client with pending replies is queued for writing, watched,
  or to be freed, in every state of every run;
* `queue_flags_agree` — a client has the flag of a queue exactly if it is in the queue
  once, in every run in which the second loop of
  `handleClientsWithPendingReadsUsingThreads` postpones no read.  A client that is
  postponed there stays flagged when `listEmpty` takes it out of the queue
  (`queue_flag_lost`), and the assertion in `unlinkClient` fails for it later.
-/
import DecomposeRedis.QueueWrites
import DecomposeRedis.QueueLoop

namespace ClientQueues

open Networking Adlist FlagQueue Function

/-! ### Calls that keep the flags right -/

/-- A call is a `Next`, or it stops.  An assertion fails only for a client that is
flagged for reading and not in the queue. -/
def Tame (s : Server) : Except Stop Server → Prop
  | .ok s' => s.Next False s'
  | .error e => e = .assertion → ¬ s.Found

section Tame

variable {s : Server} {x : Except Stop Server}

theorem Sane.tame (h : Sane False s x) : Tame s x := by
  cases x with
  | ok s' => exact h
  | error e =>
    rintro rfl
    rcases h with ⟨fault, hfault⟩ | h
    · cases hfault
    · exact h.2

theorem Tame.foldlM {ι : Type} {f : Server → ι → Except Stop Server} (hs : s.Ready) {l : List ι}
    (hf : ∀ s i, s.Ready → Tame s (f s i)) : Tame s (l.foldlM f s) := by
  induction l generalizing s with
  | nil => exact Server.Next.refl
  | cons i l ih =>
    rw [List.foldlM_cons]
    have hi := hf s i hs
    rcases hrun : f s i with e | s₁
    · rw [hrun] at hi
      exact hi
    rw [hrun] at hi
    have hnext : s.Next False s₁ := hi
    have hrest := ih (hnext.ready hs)
    show Tame s (l.foldlM f s₁)
    rcases hl : l.foldlM f s₁ with e | s₂
    · rw [hl] at hrest
      exact fun he hfound => hrest he (hnext.found hfound)
    · rw [hl] at hrest
      exact hnext.trans hrest

end Tame

/-- Where the flags were right they are, and no assertion has failed. -/
def Keeps (x : Except Stop Server) : Prop :=
  match x with
  | .ok s' => ∀ k, s'.Agree k
  | .error e => e ≠ .assertion

theorem Server.Next.agree_all {p : Prop} {s s' : Server} (h : s.Next p s') (hs : ∀ k, s.Agree k)
    (k : Queue) :
    s'.Agree k := by
  rcases eq_or_ne k .read with rfl | hne
  · exact h.read.agree (hs .read)
  · exact h.agree k hne (hs k)

theorem Tame.keeps {s : Server} {x : Except Stop Server} (h : Tame s x) (hs : ∀ k, s.Agree k) :
    Keeps x := by
  cases x with
  | ok s' => exact Server.Next.agree_all h hs
  | error e => exact fun he => h he (hs .read).linked

theorem Keeps.bind {x : Except Stop Server} {g : Server → Except Stop Server} (h : Keeps x)
    (hg : ∀ s, x = .ok s → (∀ k, s.Agree k) → Keeps (g s)) : Keeps (x.bind g) := by
  cases x with
  | error e => exact h
  | ok s => exact hg s rfl h

/-- What holds of the server between two steps: the flags of two queues are right, and
no reply is forgotten. -/
def Server.Sound (s : Server) : Prop := s.Ready ∧ s.Served

theorem Server.Later.sound {s s' : Server} (h : s.Later s') (hs : s.Sound) : s'.Sound :=
  ⟨h.ready hs.1, h.served hs.2⟩

/-! ### Reading with the I/O threads -/

section Reads

variable {N : ℕ} {r : Reads} {s s' : Server} {c : ℕ} {conn : Conn}

theorem reply_dead (call : ReplyCall) (h : s.get c = .error .freed) :
    reply N s c call = .error .freed := by
  cases call with
  | writeToClient ws =>
    rw [reply, writeToClient, h]
    rfl
  | setDeferredAggregateLen node length tag slack =>
    rw [reply, replaceOutput, h]
    rfl
  | _ =>
    rw [reply, prepareClientToWrite, h] <;> first | rfl | (intros; simp_all)

theorem threadAct_tame (a : ThreadAct) : Tame s (threadAct N s c a) := by
  by_cases hlive : ∃ conn, s.slot c = .live conn
  · obtain ⟨conn, hc⟩ := hlive
    refine Sane.tame ?_
    cases a with
    | pendingCommand =>
      rw [threadAct, get_live hc]
      exact next_set hc rfl id id
    | reply call => exact reply_sane call hc
    | closeAfterReply =>
      rw [threadAct, get_live hc]
      exact next_set hc rfl id id
    | freeClientAsync => exact .of_next (freeClientAsync_next hc)
  · have hdead := get_of_not_live (not_exists.mp hlive)
    have hrun : threadAct N s c a = .error .freed := by
      cases a with
      | pendingCommand => rw [threadAct, hdead]; rfl
      | reply call => exact reply_dead call hdead
      | closeAfterReply => rw [threadAct, hdead]; rfl
      | freeClientAsync => rw [threadAct, freeClientAsync, hdead]; rfl
    rw [hrun]
    rintro ⟨⟩

theorem threadReads_tame (hs : s.Ready) : Tame s (threadReads N r s) :=
  Tame.foldlM hs fun _ x _ => threadAct_tame x.2

/-- The queue is emptied. -/
theorem setQueue_read_sound {q : NodeList ℕ} (h : s.Sound) : (s.setQueue .read q).Sound := by
  refine ⟨fun k hk => ?_, h.2⟩
  rw [Server.Agree, queue_setQueue_of_ne hk]
  exact h.1 k hk

theorem reads_sound (hs : s.Sound) (h : handleClientsWithPendingReadsUsingThreads N r s = .ok s') :
    s'.Sound := by
  rw [handleClientsWithPendingReadsUsingThreads] at h
  split_ifs at h
  · exact Except.ok.inj h ▸ hs
  · exact Except.ok.inj h ▸ hs
  have hthreads := threadReads_tame (N := N) (r := r) hs.1
  obtain ⟨s₁, hrun₁, h⟩ := Jobs.bind_eq_ok h
  rw [hrun₁] at hthreads
  have hs₁ : s₁.Sound := Server.Later.sound (Server.Next.toLater hthreads) hs
  obtain ⟨x, hrun₂, rfl⟩ := Jobs.map_eq_ok h
  exact setQueue_read_sound ((loop_later hs₁.1 hrun₂).sound hs₁)

/-- In the second loop no read is postponed. -/
def QuietReads (N : ℕ) (r : Reads) (s : Server) : Prop :=
  s.ioThreadsActive = true → s.ioThreadsDoReads = true → ∀ s₁, threadReads N r s = .ok s₁ →
    LoopMeets (fun x => x.1.queue .read) (handlePendingRead N r) (QuietTurn N r)
      (listLength (s₁.queue .read)) (listRewind (s₁.queue .read)) (s₁, [])

theorem secondLoop_keeps (hs : ∀ k, s.Agree k)
    (hquiet : LoopMeets (fun x => x.1.queue .read) (handlePendingRead N r) (QuietTurn N r)
      (listLength (s.queue .read)) (listRewind (s.queue .read)) (s, [])) :
    Keeps ((secondLoop N r s).map fun x => x.1.setQueue .read (listEmpty (x.1.queue .read))) := by
  have hready : s.Ready := fun k _ => hs k
  have hwalk : Walk (s.view .read) (s.queue .read).nodes :=
    Agree.walk (v := s.view .read) (hs .read)
  have hall : ∀ c, s.flag .read c = true → c ∈ (s.queue .read).nodes.map Prod.snd :=
    (hs .read).linked
  have hends := loop_ends (N := N) (r := r) [] hready hwalk le_rfl
  have hloop : secondLoop N r s = loop N r (s.queue .read).nodes.length
    ((s.queue .read).nodes.head?.map Prod.fst) (s, []) := rfl
  rw [hloop]
  rcases hrun : loop N r (s.queue .read).nodes.length
    ((s.queue .read).nodes.head?.map Prod.fst) (s, [])
    with e | x
  · rw [hrun] at hends
    show e ≠ .assertion
    rcases hends with ⟨fault, rfl⟩ | rfl | rfl <;> nofun
  · have hnone := loop_quiet [] hready hwalk hall le_rfl hquiet hrun
    have hlater : s.Later x.1 := loop_later hready hrun
    intro k
    rcases eq_or_ne k .read with rfl | hne
    · rw [Server.Agree, queue_setQueue_self]
      exact agree_nil rfl hnone
    · rw [Server.Agree, queue_setQueue_of_ne hne]
      exact hlater.agree k hne (hs k)

theorem reads_keeps (hs : ∀ k, s.Agree k) (hquiet : QuietReads N r s) :
    Keeps (handleClientsWithPendingReadsUsingThreads N r s) := by
  rw [handleClientsWithPendingReadsUsingThreads]
  split_ifs with hoff hnone
  · exact hs
  · exact hs
  simp only [Bool.or_eq_true, Bool.not_eq_true', not_or, Bool.not_eq_false] at hoff
  refine Keeps.bind ((threadReads_tame fun k _ => hs k).keeps hs) fun s₁ hrun hs₁ => ?_
  exact secondLoop_keeps hs₁ (hquiet hoff.1 hoff.2 s₁ hrun)

end Reads

/-! ### Writing with the I/O threads -/

section Writes

variable {N : ℕ} {r : Reads} {ws : ℕ → List WriteResult} {fails : ℕ → Bool} {order : Schedule}
  {s s' : Server}

theorem threadedWrite_error {conn : Conn} {c : ℕ} {e : Stop}
    (h : threadedWrite N ws fails c conn = .error e) :
    ∃ fault, e = .output fault := by
  rw [threadedWrite, Conn.threadedWrite] at h
  rcases hw : (conn.mark .write false).written N (ws c) false with e' | x
  · rw [hw] at h
    exact Except.error.inj h ▸ written_error hw
  · rw [hw] at h
    cases h

theorem threadedWrite_served {conn conn' : Conn} {c : ℕ}
    (h : threadedWrite N ws fails c conn = .ok conn') :
    conn'.Served := by
  obtain ⟨x, -, rfl⟩ := Jobs.map_eq_ok h
  exact installed_served

theorem writeUsingThreads_sound (hs : s.Sound) (h : writeUsingThreads N ws fails order s = .ok s') :
    s'.Sound := by
  have hserves := writeUsingThreads_serves N ws fails order (hs.1 .write (by decide))
  rw [h] at hserves
  refine ⟨fun k hk => hserves.agree k (hs.1 k hk), fun c conn hc => ?_⟩
  by_cases hmem : c ∈ (s.queue .write).values
  · obtain ⟨conn₀, conn₁, -, hwrite, hlive⟩ := onSlot_ok (hserves.each c hmem)
    obtain rfl : conn₁ = conn := Slot.live.inj (hlive.symm.trans hc)
    exact threadedWrite_served hwrite
  · exact hs.2 c conn ((hserves.others c hmem).symm.trans hc)

theorem writeUsingThreads_keeps (hs : ∀ k, s.Agree k) :
    Keeps (writeUsingThreads N ws fails order s) := by
  have hserves := writeUsingThreads_serves N ws fails order (hs .write)
  rcases hrun : writeUsingThreads N ws fails order s with e | s'
  · rw [hrun] at hserves
    obtain ⟨c, hc, herr⟩ := hserves
    obtain ⟨conn, hconn, -⟩ := live_of_flag ((hs .write).mem_iff.mp hc)
    rw [hconn] at herr
    obtain ⟨fault, rfl⟩ := threadedWrite_error (onSlot_error herr)
    exact nofun
  · rw [hrun] at hserves
    exact fun k => hserves.agree k (hs k)

/-- Whether `stopThreadedIOIfNeeded` stops the threads. -/
def StopsThreads (s : Server) : Prop :=
  listLength (s.queue .write) ≠ 0 ∧ s.ioThreadsNum ≠ 1
    ∧ listLength (s.queue .write) < s.ioThreadsNum * 2 ∧ s.ioThreadsActive = true

theorem stopThreadedIO_sound (hs : s.Sound) (h : stopThreadedIO N r s = .ok s') : s'.Sound := by
  obtain ⟨s₁, hrun, h⟩ := Jobs.bind_eq_ok h
  have hs₁ := reads_sound hs hrun
  split at h
  · exact Except.ok.inj h ▸ hs₁
  · cases h

theorem stopThreadedIO_keeps (hs : ∀ k, s.Agree k) (hquiet : QuietReads N r s) :
    Keeps <| stopThreadedIO N r s := by
  refine Keeps.bind (reads_keeps hs hquiet) fun s₁ _ hs₁ => ?_
  split
  · exact hs₁
  · exact nofun

theorem threadedWrites_sound (hs : s.Sound)
    (h : handleClientsWithPendingWritesUsingThreads N r ws fails order s = .ok s') : s'.Sound := by
  have hdirect : ∀ {s s' : Server}, s.Sound → handleClientsWithPendingWrites N ws fails s = .ok s' →
      s'.Sound := by
    intro s s' hs h
    have hsane : Sane False s (handleClientsWithPendingWrites N ws fails s) :=
      handleClientsWithPendingWrites_sane hs.1
    rw [h] at hsane
    exact Server.Later.sound (Server.Next.toLater hsane) hs
  rw [handleClientsWithPendingWritesUsingThreads, stopThreadedIOIfNeeded] at h
  split_ifs at h with hnone hone hfew hactive
  · exact Except.ok.inj h ▸ hs
  · exact hdirect hs h
  · obtain ⟨x, hx, h⟩ := Jobs.bind_eq_ok h
    obtain ⟨s₁, hrun, rfl⟩ := Jobs.map_eq_ok hx
    exact hdirect (stopThreadedIO_sound hs hrun) h
  · exact hdirect hs h
  · exact writeUsingThreads_sound (s := { s with ioThreadsActive := true }) hs h

theorem threadedWrites_keeps (hs : ∀ k, s.Agree k) (hquiet : StopsThreads s → QuietReads N r s) :
    Keeps (handleClientsWithPendingWritesUsingThreads N r ws fails order s) := by
  have hdirect : ∀ {s : Server}, (∀ k, s.Agree k) →
      Keeps (handleClientsWithPendingWrites N ws fails s) :=
    fun hs => (handleClientsWithPendingWrites_sane fun k _ => hs k).tame.keeps hs
  rw [handleClientsWithPendingWritesUsingThreads, stopThreadedIOIfNeeded]
  split_ifs with hnone hone hfew hactive
  · exact hs
  · exact hdirect hs
  · have hstop := stopThreadedIO_keeps hs (hquiet ⟨hnone, hone, hfew, hactive⟩)
    rcases hrun : stopThreadedIO N r s with e | s₁
    · rw [hrun] at hstop
      exact hstop
    · rw [hrun] at hstop
      exact hdirect hstop
  · exact hdirect hs
  · exact writeUsingThreads_keeps (s := { s with ioThreadsActive := true }) hs

end Writes

/-! ### Freeing the clients of the queue -/

section Free

variable {p : Prop} {s s₂ : Server} {c node : ℕ} {conn : Conn}

/-- The flag of a client is cleared, then it is worked on, then the queue is written. -/
theorem Touch.of_close {q : NodeList ℕ} (hc : s.slot c = .live conn)
    (h : Touch p c (s.set c (conn.mark .close false)) s₂)
    (hq : s.Agree .close → FlagQueue.Agree q (s₂.flag .close)) :
    Touch p c s (s₂.setQueue .close q) where
  frame := fun d hd => (h.frame d hd).trans (slot_set_of_ne hd)
  read := by
    have hview : (s.set c (conn.mark .close false)).view .read = s.view .read := by
      rw [Server.view, flag_set_of_eq hc (queued_mark_of_ne (by decide))]
      rfl
    have hread := h.read
    rw [hview] at hread
    exact hread
  agree := by
    intro k hk hs
    cases k with
    | read => exact absurd rfl hk
    | write =>
      refine h.agree .write hk ?_
      rw [Server.Agree, flag_set_of_eq hc (queued_mark_of_ne (by decide))]
      exact hs
    | close =>
      exact hq hs
  kept := h.kept
  settings := h.settings

/-- A queue in which an element has moved from a node to the end. -/
theorem agree_rotate {q : NodeList ℕ} {flag : ℕ → Bool} (h : FlagQueue.Agree q flag)
    (hmem : (node, c) ∈ q.nodes) :
    FlagQueue.Agree ((listAddNodeTail q c).without node) flag := by
  intro x
  have hmem' : (node, c) ∈ (listAddNodeTail q c).nodes := List.mem_append_left _ hmem
  have hwithout := count_without hmem' x
  rw [count_listAddNodeTail, h x] at hwithout
  exact (Nat.add_right_cancel hwithout).symm

/-- What `freeClient` does to a client that is not flagged for `clients_to_close`.  A
protected client is put at the end of the queue. -/
inductive Frees (s : Server) (c : ℕ) (conn : Conn) : Except Stop Server → Prop
  | assertion (hlost : ¬ s.Found) : Frees s c conn (.error .assertion)
  | freed {s₂ : Server} (hqueue : s₂.queue .close = s.queue .close) (hslot : s₂.slot c = .freed)
      (htouch : Touch False c s s₂) : Frees s c conn (.ok s₂)
  | unlinked {s₂ : Server} {conn₂ : Conn} (hqueue : s₂.queue .close = s.queue .close)
      (hslot : s₂.slot c = .live conn₂) (hclose : conn₂.queued .close = false)
        (hfd : conn₂.flags.fd = -1)
      (htouch : Touch False c s s₂) : Frees s c conn (.ok s₂)
  | again {s₂ : Server} (hqueue : s₂.queue .close = listAddNodeTail (s.queue .close) c)
      (hread : s₂.queue .read = s.queue .read) (hslot : s₂.slot c = .live (conn.mark .close true))
      (htouch : Touch False c s s₂) : Frees s c conn (.ok s₂)

theorem freeClientAsync_frees (hc : s.slot c = .live conn) (hclose : conn.queued .close = false) :
    Frees s c conn (freeClientAsync s c) := by
  rw [freeClientAsync, get_live hc, Except.bind]
  split
  · rename_i h
    -- the client of the scripts has no socket and is not freed
    rw [hclose, Bool.false_or] at h
    exact .unlinked rfl hc hclose (conn.noSocket (.inl h)) .refl
  · have hflag : s.flag .close c = false := (flag_live hc).trans hclose
    exact .again queue_setQueue_self rfl slot_set_self
      (.mark hc (fun _ h => h.push hflag fun y => count_listAddNodeTail c y) (by rintro ⟨⟩)
        (by rintro ⟨⟩))

theorem freeClient_frees (hwrite : Linked (s.queue .write) (s.flag .write))
    (hc : s.slot c = .live conn) (hclose : conn.queued .close = false) :
    Frees s c conn (freeClient s c) := by
  rw [freeClient, get_live hc, Except.bind]
  split_ifs
  · exact freeClientAsync_frees hc hclose
  · rcases replicationCacheMaster_cases hwrite hc with
      ⟨s', hrun, htouch, hlive, hqueue⟩ | ⟨herr, hlost⟩
    · have hclose' : (s.cacheMaster.apply conn.unlinked).queued .close = false := by
        rw [s.cacheMaster.queued_eq, queued_unlinked_close, hclose]
      rw [hrun]
      exact .unlinked hqueue hlive hclose' (fd_cached s) (htouch False)
    · rw [herr]
      exact .assertion hlost
  · rcases unlinkClient_cases hwrite hc with ⟨s', hrun, htouch, hlive, hqueue⟩ | ⟨herr, hlost⟩
    · have hnone : unqueue .close s' c = .ok s' := by
        rw [unqueue, get_live hlive, Except.bind, queued_unlinked_close, hclose]
        rfl
      have hfree : Touch False c s' { s' with slot := update s'.slot c .freed } := by
        refine .free hlive fun k => ?_
        rcases eq_or_ne k .close with rfl | hne
        · exact queued_unlinked_close.trans hclose
        · exact queued_unlinked hne
      rw [hrun, Except.bind, hnone]
      exact .freed hqueue (update_self ..) ((htouch False).trans hfree)
    · rw [herr]
      exact .assertion hlost

/-- The flags of the queue in the end: only that of the client can change. -/
theorem flag_close_of_touch {b : Bool} (hc : s.slot c = .live conn)
    (h : Touch False c (s.set c (conn.mark .close false)) s₂) (hb : s₂.flag .close c = b) :
    s₂.flag .close = update (s.flag .close) c b := by
  funext d
  rcases eq_or_ne d c with rfl | hne
  · rw [update_self, hb]
  · rw [update_of_ne hne, Server.flag, h.frame d hne, slot_set_of_ne hne, Server.flag]

theorem freeFirst_sane (hs : s.Ready) (i : ℕ) : Sane False s (freeFirst s i) := by
  rw [freeFirst]
  rcases hfirst : listFirst (s.queue .close) with _ | ⟨node, c⟩
  · exact Server.Next.refl
  have hmem : (node, c) ∈ (s.queue .close).nodes := List.mem_of_head? hfirst
  have hagree : s.Agree .close := hs .close (by decide)
  obtain ⟨conn, hc, hclose⟩ := hagree.live hmem
  have hflag : ∀ k, k ≠ .close → (s.set c (conn.mark .close false)).flag k = s.flag k :=
    fun k hk => flag_set_of_eq hc (queued_mark_of_ne hk)
  have hwrite : Linked ((s.set c (conn.mark .close false)).queue .write)
      ((s.set c (conn.mark .close false)).flag .write) := by
    rw [hflag .write (by decide)]
    exact (hs .write (by decide)).linked
  have hunmarked : (conn.mark .close false).queued .close = false := queued_mark_self
  have hfrees := freeClient_frees hwrite slot_set_self hunmarked
  dsimp only
  rw [get_live hc, Except.bind]
  generalize freeClient (s.set c (conn.mark .close false)) c = x at hfrees ⊢
  cases hfrees with
  | assertion hlost =>
    refine .inr ⟨rfl, fun hfound => hlost ?_⟩
    rw [Server.Found, hflag .read (by decide)]
    exact hfound
  | @freed s₂ hqueue hslot htouch =>
    have hflag₂ := flag_close_of_touch (b := false) hc htouch (by rw [Server.flag, hslot])
    rw [Except.bind, hqueue]
    dsimp only [queue_set]
    rw [listDelNode_of_mem hmem]
    exact (Touch.of_close hc htouch fun h => hflag₂ ▸ h.drop hmem).next_freed hslot
  | @unlinked s₂ conn₂ hqueue hslot hclose₂ hfd htouch =>
    have hflag₂ := flag_close_of_touch hc htouch ((flag_live hslot).trans hclose₂)
    rw [Except.bind, hqueue]
    dsimp only [queue_set]
    rw [listDelNode_of_mem hmem]
    exact (Touch.of_close hc htouch fun h => hflag₂ ▸ h.drop hmem).next hc hslot (fun _ => hfd)
      (fun _ h => absurd hfd h) (.inr hfd)
  | @again s₂ hqueue hread hslot htouch =>
    have hflag₂ : s₂.flag .close = s.flag .close := by
      rw [flag_close_of_touch hc htouch ((flag_live hslot).trans queued_mark_self), ← hclose,
        ← flag_live hc, update_eq_self]
    have hmem' : (node, c) ∈ (listAddNodeTail (s.queue .close) c).nodes :=
      List.mem_append_left _ hmem
    rw [Except.bind, hqueue]
    dsimp only [queue_set]
    rw [listDelNode_of_mem hmem']
    refine (Touch.of_close hc htouch fun h => hflag₂ ▸ agree_rotate h hmem).next hc hslot id
      (fun _ _ _ _ _ => .inr (.inr queued_mark_self)) (.inl fun x hx => ?_)
    rw [queue_setQueue_of_ne (by decide), hread]
    exact hx

theorem freeClientsInAsyncFreeQueue_tame (hs : s.Ready) :
    Tame s (freeClientsInAsyncFreeQueue s) := by
  have hloop := Sane.foldlM hs (l := List.range (listLength (s.queue .close)))
    fun s i _ hs => freeFirst_sane hs i
  rw [freeClientsInAsyncFreeQueue]
  rcases hrun : (List.range (listLength (s.queue .close))).foldlM freeFirst s with e | s₁
  · rw [hrun] at hloop
    exact hloop.tame
  · rw [hrun] at hloop
    rw [Except.bind]
    split
    · exact hloop
    · exact nofun

end Free

/-! ### Runs -/

section Runs

variable {N : ℕ} {s s' : Server} {steps : List Step}

theorem step_sound {a : Step} (hs : s.Sound) (h : step N s a = .ok s') : s'.Sound := by
  cases a with
  | act a =>
    have hsane := act_sane (N := N) (p := True) a hs.1 fun _ => trivial
    have h : act N s a = .ok s' := h
    rw [h] at hsane
    exact Server.Later.sound (Server.Next.toLater hsane) hs
  | handleClientsWithPendingReadsUsingThreads r => exact reads_sound hs h
  | handleClientsWithPendingWritesUsingThreads r ws fails order => exact threadedWrites_sound hs h
  | freeClientsInAsyncFreeQueue =>
    have htame := freeClientsInAsyncFreeQueue_tame hs.1
    have h : freeClientsInAsyncFreeQueue s = .ok s' := h
    rw [h] at htame
    exact Server.Later.sound (Server.Next.toLater htame) hs

theorem run_sound (hs : s.Sound) (h : run N s steps = .ok s') : s'.Sound := by
  induction steps generalizing s with
  | nil => exact Except.ok.inj h ▸ hs
  | cons a steps ih =>
    obtain ⟨s₁, hrun, h⟩ := Jobs.bind_eq_ok h
    exact ih (step_sound hs hrun) h

theorem init_agree (settings : Settings) (k : Queue) : (Server.init settings).Agree k :=
  agree_nil rfl fun _ => rfl

theorem init_sound (settings : Settings) : (Server.init settings).Sound := by
  refine ⟨fun k _ => init_agree settings k, fun c conn hc => ?_⟩
  cases hc

/-- **No pending reply is forgotten.**  After any run, a client that is connected, not
protected and no replica, and that has pending replies, is in `clients_pending_write`,
or its socket is watched, or it is in `clients_to_close`. -/
theorem no_reply_forgotten (N : ℕ) (settings : Settings) (steps : List Step) (s : Server)
    (h : run N (.init settings) steps = .ok s) (c : ℕ) (conn : Conn) (hc : s.slot c = .live conn)
    (hfd : conn.flags.fd ≠ -1) (hprotected : conn.isProtected = false)
    (hrepl : conn.replstate = none) (hpending : clientHasPendingReplies conn.out = true) :
    (conn.queued .write = true ∧ c ∈ (s.queue .write).values) ∨ conn.events.writable = true
      ∨ c ∈ (s.queue .close).values := by
  obtain ⟨hready, hserved⟩ := run_sound (init_sound settings) h
  rcases hserved c conn hc hfd hprotected hrepl hpending with hwrite | hevent | hclose
  · exact .inl ⟨hwrite, (hready .write (by decide)).mem_iff.mpr ((flag_live hc).trans hwrite)⟩
  · exact .inr (.inl hevent)
  · exact .inr (.inr ((hready .close (by decide)).mem_iff.mpr ((flag_live hc).trans hclose)))

/-- A client that was answered and not written to yet. -/
theorem no_reply_forgotten_pong :
    ∃ s conn, run 65536 (.init ⟨false, 1, false, false, false, false, .emptying⟩)
        [.act (.createClient 0 7), .act (.reply 0 (.addReplyProto [43, 80, 79, 78, 71, 13, 10] 0))]
          = .ok s
      ∧ s.slot 0 = .live conn ∧ clientHasPendingReplies conn.out = true
      ∧ ((conn.queued .write = true ∧ 0 ∈ (s.queue .write).values) ∨ conn.events.writable = true
        ∨ 0 ∈ (s.queue .close).values) := by
  refine ⟨_, _, rfl, rfl, by decide +kernel, ?_⟩
  exact no_reply_forgotten 65536 ⟨false, 1, false, false, false, false, .emptying⟩
    [.act (.createClient 0 7), .act (.reply 0 (.addReplyProto [43, 80, 79, 78, 71, 13, 10] 0))]
    _ rfl 0 _ rfl (by decide +kernel) rfl rfl (by decide +kernel)

/-! ### The flags -/

/-- A step, as one of a run. -/
def runStep (N : ℕ) (s : Server) (a : Step) : Option (Server × Unit) :=
  (step N s a).toOption.map fun s => (s, ())

/-- The step postpones no read in the second loop of
`handleClientsWithPendingReadsUsingThreads`. -/
def Step.Calm (N : ℕ) (s : Server) : Step → Prop
  | .act _ => True
  | .handleClientsWithPendingReadsUsingThreads r => QuietReads N r s
  | .handleClientsWithPendingWritesUsingThreads r _ _ _ => StopsThreads s → QuietReads N r s
  | .freeClientsInAsyncFreeQueue => True

theorem step_keeps {a : Step} (hs : ∀ k, s.Agree k) (ha : a.Calm N s) : Keeps (step N s a) := by
  cases a with
  | act a =>
    have hsane := act_sane (N := N) (p := True) a (fun k _ => hs k) fun _ => trivial
    show Keeps (act N s a)
    rcases hrun : act N s a with e | s'
    · rw [hrun] at hsane
      rcases hsane with ⟨fault, rfl⟩ | h
      · exact nofun
      · exact absurd (hs .read).linked h.2
    · rw [hrun] at hsane
      exact Server.Next.agree_all hsane hs
  | handleClientsWithPendingReadsUsingThreads r => exact reads_keeps hs ha
  | handleClientsWithPendingWritesUsingThreads r ws fails order => exact threadedWrites_keeps hs ha
  | freeClientsInAsyncFreeQueue => exact (freeClientsInAsyncFreeQueue_tame fun k _ => hs k).keeps hs

theorem run_keeps (hs : ∀ k, s.Agree k) (h : Runs.Meets (runStep N) (Step.Calm N) s steps) :
    Keeps (run N s steps) := by
  induction steps generalizing s with
  | nil => exact hs
  | cons a steps ih =>
    refine Keeps.bind (step_keeps hs h.1) fun s₁ hrun hs₁ => ih hs₁ (h.2 s₁ () ?_)
    rw [runStep, hrun]
    rfl

/-- **Flags and queues agree.**  In a run whose steps postpone no read in the second
loop, a live client has the flag of a queue exactly if it is in the queue once, a
client without the flag is not in the queue, and the clients in the queues are live; and
no assertion fails. -/
theorem queue_flags_agree (N : ℕ) (settings : Settings) (steps : List Step)
    (h : Runs.Meets (runStep N) (Step.Calm N) (.init settings) steps) :
    match run N (.init settings) steps with
    | .ok s => ∀ k c,
        (∀ conn, s.slot c = .live conn →
          (conn.queued k = true ↔ (s.queue k).values.count c = 1)
          ∧ (conn.queued k = false ↔ c ∉ (s.queue k).values))
        ∧ (c ∈ (s.queue k).values → ∃ conn, s.slot c = .live conn)
    | .error e => e ≠ .assertion := by
  have hkeeps := run_keeps (init_agree settings) h
  rcases hrun : run N (.init settings) steps with e | s
  · rw [hrun] at hkeeps
    exact hkeeps
  · rw [hrun] at hkeeps
    have hagree : ∀ k, s.Agree k := hkeeps
    intro k c
    refine ⟨fun conn hc => ?_, fun hmem => ?_⟩
    · have hcount := hagree k c
      have hmem := (hagree k).mem_iff (x := c)
      rw [flag_live hc] at hcount hmem
      rw [hcount, hmem]
      cases conn.queued k <;> simp
    · obtain ⟨conn, hc, -⟩ := live_of_flag ((hagree k).mem_iff.mp hmem)
      exact ⟨conn, hc⟩

/-! ### Commands that do not enter the event loop -/

theorem loopMeets_of_forall {σ : Type} {queue : σ → NodeList ℕ} {body : σ → ℕ → ℕ → Except Stop σ}
    {ok : σ → ℕ → Option ℕ → Prop} (h : ∀ s c next, ok s c next) (fuel : ℕ) (next : Option ℕ)
    (s : σ) :
    LoopMeets queue body ok fuel next s := by
  induction fuel generalizing next s with
  | zero => cases next <;> trivial
  | succ fuel ih =>
    cases next with
    | none => trivial
    | some node => exact fun c next _ => ⟨h s c next, fun s' _ => ih next s'⟩

/-- Where no command calls `postponeClientRead`, nothing is postponed. -/
theorem quietReads_of_forall {r : Reads}
    (hcommand : ∀ c, ∀ a ∈ r.command c, ∀ d, a ≠ .postponeClientRead d)
    (hinput : ∀ c, ∀ a ∈ r.input c, ∀ d, a ≠ .postponeClientRead d) : QuietReads N r s := by
  have hacts : ∀ (s : Server) (l : List Act), (∀ a ∈ l, ∀ d, a ≠ .postponeClientRead d) →
      QuietActs N s l := by
    intro s l hl
    induction l generalizing s with
    | nil => trivial
    | cons a l ih =>
      refine ⟨fun ha => ?_, fun s' _ _ => ih s' fun b hb => hl b (List.mem_cons_of_mem _ hb)⟩
      cases a with
      | postponeClientRead d => exact hl _ List.mem_cons_self d rfl
      | _ => exact ha
  refine fun _ _ s₁ _ => loopMeets_of_forall (fun x c _ conn _ => ⟨?_, fun s₂ _ => ?_⟩) ..
  · split
    · exact hacts _ _ (hcommand c)
    · exact hacts _ _ nofun
  · exact hacts _ _ (hinput c)

end Runs

/-- A read that was postponed is served by the I/O threads. -/
def threadedPing : List Step :=
  [.act (.createClient 0 7), .act (.postponeClientRead 0),
    .handleClientsWithPendingReadsUsingThreads
      ⟨[(0, .pendingCommand)], fun _ => [.reply 0 (.addReplyProto [43, 80, 79, 78, 71, 13, 10] 0)],
        fun _ => []⟩]

theorem queue_flags_agree_ping :
    Runs.Meets (runStep 65536) (Step.Calm 65536)
      (.init ⟨false, 2, true, true, false, false, .emptying⟩) threadedPing
    ∧ match run 65536 (.init ⟨false, 2, true, true, false, false, .emptying⟩) threadedPing with
      | .ok s => ∀ k c,
          (∀ conn, s.slot c = .live conn →
            (conn.queued k = true ↔ (s.queue k).values.count c = 1)
            ∧ (conn.queued k = false ↔ c ∉ (s.queue k).values))
          ∧ (c ∈ (s.queue k).values → ∃ conn, s.slot c = .live conn)
      | .error e => e ≠ .assertion := by
  have hmeets : Runs.Meets (runStep 65536) (Step.Calm 65536) (.init ⟨false, 2, true, true, false,
      false, .emptying⟩) threadedPing := by
    refine ⟨trivial, fun _ _ _ => ⟨trivial, fun s _ _ => ⟨?_, fun _ _ _ => trivial⟩⟩⟩
    exact quietReads_of_forall (fun _ a ha d => by simp at ha; simp [ha]) nofun
  exact ⟨hmeets, queue_flags_agree 65536 ⟨false, 2, true, true, false,
    false, .emptying⟩ threadedPing hmeets⟩

/-- The command of client 0 enters the event loop, which postpones the read of client 1. -/
def postponedInside : List Step :=
  [.act (.createClient 0 7), .act (.createClient 1 8), .act (.postponeClientRead 0),
    .handleClientsWithPendingReadsUsingThreads
      ⟨[(0, .pendingCommand)], fun _ => [.postponeClientRead 1], fun _ => []⟩]

/-- Client 1 is flagged and in no queue, and when it is freed the assertion fails. -/
theorem queue_flag_lost :
    ((run 65536 (.init ⟨false, 2, true, true, false, false, .emptying⟩)
      postponedInside).toOption.map
        fun s => (s.flag .read 1, (s.queue .read).values)) = some (true, [])
    ∧ stopOf (run 65536 (.init ⟨false, 2, true, true, false, false, .emptying⟩)
      (postponedInside ++ [.act (.freeClient 1)]))
      = some .assertion := by
  decide +kernel

end ClientQueues
