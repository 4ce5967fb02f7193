/-
Writing to the clients of `clients_pending_write`, by the main thread or by the I/O
threads.

Either way each client of the queue is served on its own (`Serves`), by
`Conn.directWrite` or by `Conn.threadedWrite`, in whatever order the threads work.  The
two differ for a client that is protected, for one that is to wait for the next fsync,
and for one whose socket fails for good; `threaded_writes_same_iff` says exactly for which
results of `write(2)` they leave the same clients and the same queue of clients to close.
-/
import DecomposeRedis.QueueActs
import DecomposeRedis.ReplyOrder

namespace ClientQueues

open Networking Adlist FlagQueue Function

/-- What is done to the client at an address. -/
def onSlot (f : Conn → Except Stop Conn) : Slot → Except Stop Slot
  | .live conn => (f conn).map .live
  | _ => .error .freed

/-- A client after it was served by the I/O threads. -/
def Conn.threadedWrite (N : ℕ) (ws : List WriteResult) (fails : Bool) (conn : Conn) :
    Except Stop Conn :=
  ((conn.mark .write false).written N ws false).map fun x =>
    x.1.installed ⟨false, true, false⟩ fails

/-- Each client of `clients_pending_write` is served by `f`, and no other. -/
structure Serves (f : ℕ → Conn → Except Stop Conn) (s s' : Server) : Prop where
  each : ∀ c ∈ (s.queue .write).values, onSlot (f c) (s.slot c) = .ok (s'.slot c)
  others : ∀ c, c ∉ (s.queue .write).values → s'.slot c = s.slot c
  agree : ∀ k, s.Agree k → s'.Agree k
  read : s'.queue .read = s.queue .read
  settings : s'.toSettings = s.toSettings

variable {f : Conn → Except Stop Conn}

theorem onSlot_ok {slot slot' : Slot} (h : onSlot f slot = .ok slot') :
    ∃ conn conn', slot = .live conn ∧ f conn = .ok conn' ∧ slot' = .live conn' := by
  rcases slot with _ | conn | _
  · cases h
  · rw [onSlot] at h
    obtain ⟨conn', hf, rfl⟩ := Jobs.map_eq_ok h
    exact ⟨conn, conn', rfl, hf, rfl⟩
  · cases h

theorem onSlot_error {conn : Conn} {e : Stop}
    (h : onSlot f (.live conn) = .error e) : f conn = .error e := by
  rw [onSlot] at h
  rcases hf : f conn with e' | conn'
  · rw [hf] at h
    exact congrArg _ (Except.error.inj h)
  · rw [hf] at h
    cases h

section Passes

variable {s s' s'' : Server} {c : ℕ} {conn : Conn} {job : Server → ℕ → Except Stop Server}
  {loc : ℕ → Conn → Except Stop Conn}

theorem Touch.slot_eq {p : Prop} {slot : Slot} (h : Touch p c s s') (hc : s'.slot c = slot) :
    s'.slot = update s.slot c slot := by
  funext d
  rcases eq_or_ne d c with rfl | hne
  · rw [hc, update_self]
  · rw [h.frame d hne, update_of_ne hne]

theorem Touch.agree_all {p : Prop} (h : Touch p c s s') {k : Queue} (hs : s.Agree k) :
    s'.Agree k := by
  rcases eq_or_ne k .read with rfl | hne
  · exact h.read.agree hs
  · exact h.agree k hne hs

theorem get_of_not_live (h : ∀ conn, s.slot c ≠ .live conn) : s.get c = .error .freed := by
  rw [Server.get]
  split
  · exact absurd ‹_› (h _)
  · rfl

/-! ### The main thread -/

section Direct

variable (N : ℕ) (ws : ℕ → List WriteResult) (fails : ℕ → Bool)

/-- `handleClientsWithPendingWrites` for a client. -/
def directWrite (s : Server) (c : ℕ) : Conn → Except Stop Conn :=
  Conn.directWrite N (ws c) (fails c) (s.aofOn && s.aofFsyncAlways)

theorem handlePendingWrite_local :
    Jobs.Local Server.slot Prod.snd (fun rest s' => (s'.queue .write).nodes = rest
        ∧ s'.queue .read = s.queue .read ∧ s'.toSettings = s.toSettings ∧
          ∀ k, s.Agree k → s'.Agree k)
      (fun x => onSlot (directWrite N ws fails s x.2))
      (fun s' x => handlePendingWrite N ws fails s' x.1 x.2) := by
  rintro s₁ ⟨node, c⟩ rest ⟨hnodes, hread, hsettings, hagree⟩
  have hnodes : (s₁.queue .write).nodes = [] ++ (node, c) :: rest := hnodes
  have hmem : (node, c) ∈ (s₁.queue .write).nodes := hnodes ▸ List.mem_cons_self
  have haof : (s₁.aofOn && s₁.aofFsyncAlways) = (s.aofOn && s.aofFsyncAlways) :=
    congrArg (fun x => x.aofOn && x.aofFsyncAlways) hsettings
  dsimp only
  by_cases hlive : ∃ conn, s₁.slot c = .live conn
  · obtain ⟨conn, hc⟩ := hlive
    have hspec := handlePendingWrite_spec N ws fails hc hmem
    rw [haof] at hspec
    rw [hc, onSlot, directWrite]
    rcases hw : conn.directWrite N (ws c) (fails c) (s.aofOn && s.aofFsyncAlways) with e | conn'
    · rw [hw] at hspec
      exact hspec
    · rw [hw] at hspec
      obtain ⟨s₂, hrun, htouch, hlive, hwrite, hread₂⟩ := hspec
      have htouch := htouch False
      refine ⟨s₂, hrun, ⟨?_, hread₂.trans hread, htouch.settings.trans hsettings,
        fun k hk => htouch.agree_all (hagree k hk)⟩, htouch.slot_eq hlive⟩
      rw [hwrite]
      exact nodes_without_of_split hnodes
  · have hdead : ∀ conn, s₁.slot c ≠ .live conn := fun conn hc => hlive ⟨conn, hc⟩
    have hget := get_of_not_live hdead
    rcases hc : s₁.slot c with _ | conn | _
    · rw [onSlot.eq_def, handlePendingWrite, hget]
      rfl
    · exact absurd hc (hdead conn)
    · rw [onSlot.eq_def, handlePendingWrite, hget]
      rfl

/-- The main thread serves the clients of the queue. -/
theorem handleClientsWithPendingWrites_serves (hs : s.Agree .write) :
    match handleClientsWithPendingWrites N ws fails s with
    | .error e =>
      ∃ c ∈ (s.queue .write).values, onSlot (directWrite N ws fails s c) (s.slot c) = .error e
    | .ok s' => Serves (directWrite N ws fails s) s s' := by
  have hlocal := Jobs.foldlM_local (handlePendingWrite_local N ws fails (s := s))
    (l := (s.queue .write).nodes)
    hs.nodup ⟨rfl, rfl, rfl, fun _ h => h⟩
  rw [handleClientsWithPendingWrites_eq]
  rcases hrun : (s.queue .write).nodes.foldlM (fun s x => handlePendingWrite N ws fails s x.1 x.2) s
    with e | s'
  · rw [hrun] at hlocal ⊢
    obtain ⟨x, hx, herr⟩ := hlocal
    exact ⟨x.2, List.mem_map.mpr ⟨x, hx, rfl⟩, herr⟩
  · rw [hrun] at hlocal ⊢
    obtain ⟨⟨-, hread, hsettings, hagree⟩, hothers, heach⟩ := hlocal
    refine ⟨fun c hc => ?_, hothers, hagree, hread, hsettings⟩
    obtain ⟨x, hx, rfl⟩ := List.mem_map.mp hc
    exact heach x hx

end Direct

/-! ### The I/O threads -/

/-- What the passes of the I/O threads leave alone: the flags of `clients_pending_write`
are cleared first, and the queue is emptied last. -/
structure Passes (s s' : Server) : Prop where
  queue : ∀ k, k ≠ .close → s'.queue k = s.queue k
  agree : ∀ k, k ≠ .write → s.Agree k → s'.Agree k
  settings : s'.toSettings = s.toSettings

theorem Passes.trans (h : Passes s s') (h' : Passes s' s'') : Passes s s'' :=
  ⟨fun k hk => (h'.queue k hk).trans (h.queue k hk), fun k hk hs => h'.agree k hk (h.agree k hk hs),
    h'.settings.trans h.settings⟩

theorem Becomes.passes {conn' : Conn} (h : Becomes .close c conn' s s') : Passes s s' :=
  ⟨h.queue, fun _ _ hs => (h.touch False).agree_all hs, (h.touch False).settings⟩

/-- A job for one client, which fails if the client was freed. -/
structure ForClient (loc : ℕ → Conn → Except Stop Conn)
    (job : Server → ℕ → Except Stop Server) : Prop where
  dead : ∀ s c, (∀ conn, s.slot c ≠ .live conn) → job s c = .error .freed
  live : ∀ s c conn, s.slot c = .live conn →
    match loc c conn with
    | .error e => job s c = .error e
    | .ok conn' => ∃ s', job s c = .ok s' ∧ Passes s s' ∧ s'.slot = update s.slot c (.live conn')

theorem ForClient.local (h : ForClient loc job) :
    Jobs.Local Server.slot id (fun _ => Passes s) (fun c => onSlot (loc c)) job := by
  intro s₁ c _ hs₁
  rcases hc : s₁.slot c with _ | conn | _
  · rw [id, hc]
    exact h.dead s₁ c fun conn hlive => nomatch hc.symm.trans hlive
  · have hjob := h.live s₁ c conn hc
    dsimp only
    rw [id, hc, onSlot]
    rcases hloc : loc c conn with e | conn'
    · rw [hloc] at hjob
      exact hjob
    · rw [hloc] at hjob
      obtain ⟨s₂, hrun, hpasses, hslot⟩ := hjob
      exact ⟨s₂, hrun, hs₁.trans hpasses, hslot⟩
  · rw [id, hc]
    exact h.dead s₁ c fun conn hlive => nomatch hc.symm.trans hlive

theorem clear_forClient :
    ForClient (fun _ conn => .ok (conn.mark .write false))
      (fun s c => (s.get c).map fun conn => s.set c (conn.mark .write false)) where
  dead := by
    intro s c hdead
    rw [get_of_not_live hdead]
    rfl
  live := by
    intro s c conn hc
    rw [get_live hc]
    refine ⟨_, rfl, ⟨fun _ _ => rfl, fun k hk hs => ?_, rfl⟩, rfl⟩
    rw [Server.Agree, flag_set_of_eq hc (queued_mark_of_ne hk)]
    exact hs

variable (N : ℕ) (ws : ℕ → List WriteResult) (fails : ℕ → Bool)

theorem write_forClient :
    ForClient (fun c conn => (conn.written N (ws c) false).map Prod.fst)
      (fun s c => (writeToClient N s c (ws c) false).map Prod.fst) where
  dead := by
    intro s c hdead
    rw [writeToClient, get_of_not_live hdead]
    rfl
  live := by
    intro s c conn hc
    have hspec := writeToClient_spec (N := N) (ws c) false hc
    rcases hw : conn.written N (ws c) false with e | x
    · rw [hw] at hspec
      rw [hspec]
      rfl
    · rw [hw] at hspec
      obtain ⟨s', hrun, hbecomes⟩ := hspec
      rw [hrun]
      exact ⟨s', rfl, hbecomes.passes, (hbecomes.touch False).slot_eq hbecomes.live⟩

theorem install_forClient :
    ForClient (fun c conn => .ok (conn.installed ⟨false, true, false⟩ (fails c)))
      (fun s c => installWriteHandler ⟨false, true, false⟩ fails s c) where
  dead := by
    intro s c hdead
    rw [installWriteHandler, get_of_not_live hdead]
    rfl
  live := by
    intro s c conn hc
    obtain ⟨s', hrun, hbecomes⟩ := installWriteHandler_spec ⟨false, true, false⟩ fails hc
    exact ⟨s', hrun, hbecomes.passes, (hbecomes.touch False).slot_eq hbecomes.live⟩

/-- A loop over the queue that does a job for each client. -/
theorem forQueue_forClient (h : ForClient loc job) :
    forQueue .write (fun s _ c => job s c) s = (s.queue .write).values.foldlM job s := by
  rw [forQueue_eq_foldlM, NodeList.values, List.foldlM_map]
  intro s node c front rest s' hnodes hrun
  refine ⟨front ++ [(node, c)], ?_⟩
  obtain ⟨conn, hc⟩ : ∃ conn, s.slot c = .live conn := by
    by_contra hdead
    cases (h.dead s c fun conn hc => hdead ⟨conn, hc⟩).symm.trans hrun
  have hjob := h.live s c conn hc
  rcases hloc : loc c conn with e | conn'
  · rw [hloc] at hjob
    cases hjob.symm.trans hrun
  · rw [hloc] at hjob
    obtain ⟨s₁, hrun₁, hpasses, -⟩ := hjob
    obtain rfl : s₁ = s' := Except.ok.inj (hrun₁.symm.trans hrun)
    rw [hpasses.queue .write (by decide), hnodes, List.append_assoc]
    rfl

/-- Passes over the clients `l` have done `loc` to each of them. -/
structure Pass (loc : ℕ → Conn → Except Stop Conn) (l : List ℕ) (s s' : Server) : Prop extends
    Passes s s' where
  others : ∀ c, c ∉ l → s'.slot c = s.slot c
  each : ∀ c ∈ l, onSlot (loc c) (s.slot c) = .ok (s'.slot c)

/-- One more pass, in any order. -/
theorem Pass.step {loc' : ℕ → Conn → Except Stop Conn}
    {l l' : List ℕ} (h : Pass loc l s s') (hjob : ForClient loc' job) (hperm : l'.Perm l)
    (hn : l.Nodup) :
    match l'.foldlM job s' with
    | .error e => ∃ c ∈ l, onSlot (fun conn => (loc c conn).bind (loc' c)) (s.slot c) = .error e
    | .ok s'' => Pass (fun c conn => (loc c conn).bind (loc' c)) l s s'' := by
  have hlocal := Jobs.foldlM_local (hjob.local (s := s')) (l := l') (s := s')
    (by rw [List.map_id]; exact hperm.nodup_iff.mpr hn) ⟨fun _ _ => rfl, fun _ _ hs => hs, rfl⟩
  rcases hrun : l'.foldlM job s' with e | s''
  · rw [hrun] at hlocal
    obtain ⟨c, hc, herr⟩ := hlocal
    have hc := hperm.mem_iff.mp hc
    obtain ⟨conn, conn', hconn, hloc, hconn'⟩ := onSlot_ok (h.each c hc)
    refine ⟨c, hc, ?_⟩
    rw [id, hconn'] at herr
    rw [hconn, onSlot, hloc]
    exact congrArg (Except.map Slot.live) (onSlot_error herr)
  · rw [hrun] at hlocal
    obtain ⟨hpasses, hothers, heach⟩ := hlocal
    rw [List.map_id] at hothers
    refine ⟨h.toPasses.trans hpasses, fun c hc => ?_, fun c hc => ?_⟩
    · rw [hothers c fun hc' => hc (hperm.mem_iff.mp hc'), h.others c hc]
    · obtain ⟨conn, conn', hconn, hloc, hconn'⟩ := onSlot_ok (h.each c hc)
      have heach : onSlot (loc' c) (s'.slot c) = .ok (s''.slot c) := heach c (hperm.mem_iff.mpr hc)
      rw [hconn', onSlot] at heach
      rw [hconn, onSlot, hloc]
      exact heach

/-- `handleClientsWithPendingWritesUsingThreads` for a client. -/
def threadedWrite (c : ℕ) : Conn → Except Stop Conn := Conn.threadedWrite N (ws c) (fails c)

theorem queued_closing {k : Queue} (h : k ≠ .close) : conn.closing.queued k = conn.queued k := by
  rw [Conn.closing]
  split
  · rfl
  · exact queued_mark_of_ne h

/-- The client is not queued for writing then. -/
theorem queued_threadedWrite {conn' : Conn} (h : threadedWrite N ws fails c conn = .ok conn') :
    conn'.queued .write = false := by
  have hmark : (conn.mark .write false).queued .write = false := queued_mark_self
  have hinstalled : ∀ (conn : Conn) b, conn.queued .write = false →
      (conn.installed ⟨false, true, false⟩ b).queued .write = false := by
    intro conn b hconn
    rw [Conn.installed]
    split_ifs
    · rw [queued_closing (by decide)]
      exact hconn
    · exact hconn
    · exact hconn
  obtain ⟨x, hx, rfl⟩ := Jobs.map_eq_ok h
  obtain ⟨y, -, rfl⟩ := written_ok hx
  refine hinstalled _ _ ?_
  split
  · exact (queued_closing (by decide)).trans hmark
  · exact hmark

/-- The I/O threads serve the clients of the queue, whatever the order. -/
theorem writeUsingThreads_serves (order : Schedule) (hs : s.Agree .write) :
    match writeUsingThreads N ws fails order s with
    | .error e =>
      ∃ c ∈ (s.queue .write).values, onSlot (threadedWrite N ws fails c) (s.slot c) = .error e
    | .ok s' => Serves (threadedWrite N ws fails) s s' := by
  have hn : (s.queue .write).values.Nodup := hs.nodup
  have hstart : Pass (fun _ => .ok) (s.queue .write).values s s := by
    refine ⟨⟨fun _ _ => rfl, fun _ _ h => h, rfl⟩, fun _ _ => rfl, fun c hc => ?_⟩
    obtain ⟨conn, hconn, -⟩ := live_of_flag (hs.mem_iff.mp hc)
    rw [hconn]
    rfl
  have hloc : ∀ c, threadedWrite N ws fails c = fun conn =>
      ((((.ok conn : Except Stop Conn).bind fun conn => .ok (conn.mark .write false)).bind
        fun conn => (conn.written N (ws c) false).map Prod.fst).bind
        fun conn => .ok (conn.installed ⟨false, true, false⟩ (fails c))) := by
    intro c
    funext conn
    show Conn.threadedWrite N (ws c) (fails c) conn
      = (((conn.mark .write false).written N (ws c) false).map Prod.fst).bind _
    rw [Conn.threadedWrite]
    cases (conn.mark .write false).written N (ws c) false <;> rfl
  rw [writeUsingThreads, forQueue_forClient clear_forClient]
  -- the flags are cleared
  have hpass₁ := hstart.step clear_forClient (List.Perm.refl _) hn
  rcases hrun₁ : (s.queue .write).values.foldlM
    (fun s c => (s.get c).map fun conn => s.set c (conn.mark .write false)) s with e | s₁
  · rw [hrun₁] at hpass₁
    obtain ⟨c, hc, herr⟩ := hpass₁
    obtain ⟨conn, hconn, -⟩ := live_of_flag (hs.mem_iff.mp hc)
    rw [hconn] at herr
    cases herr
  rw [hrun₁] at hpass₁ ⊢
  -- the threads write
  have hpass₂ := hpass₁.step (write_forClient N ws)
    ((order.perm (s₁.queue .write).values).trans (by rw [hpass₁.queue .write (by decide)])) hn
  rw [Except.bind]
  rcases hrun₂ : (order.order (s₁.queue .write).values).foldlM
    (fun s c => (writeToClient N s c (ws c) false).map Prod.fst) s₁ with e | s₂
  · rw [hrun₂] at hpass₂
    obtain ⟨c, hc, herr⟩ := hpass₂
    obtain ⟨conn, hconn, -⟩ := live_of_flag (hs.mem_iff.mp hc)
    refine ⟨c, hc, ?_⟩
    rw [hconn] at herr
    rw [hconn, hloc c]
    have herr := onSlot_error herr
    rw [onSlot, herr]
    rfl
  rw [hrun₂] at hpass₂
  -- the write handlers are installed
  have hqueue₂ : s₂.queue .write = s.queue .write := hpass₂.queue .write (by decide)
  have hpass₃ := hpass₂.step (install_forClient fails) (List.Perm.refl _) hn
  rw [Except.bind, forQueue_forClient (install_forClient fails), hqueue₂]
  rcases hrun₃ : (s.queue .write).values.foldlM
    (fun s c => installWriteHandler ⟨false, true, false⟩ fails s c) s₂ with e | s₃
  · rw [hrun₃] at hpass₃
    obtain ⟨c, hc, herr⟩ := hpass₃
    exact ⟨c, hc, by rw [hloc c]; exact herr⟩
  rw [hrun₃] at hpass₃
  have heach : ∀ c ∈ (s.queue .write).values,
      onSlot (threadedWrite N ws fails c) (s.slot c) = .ok (s₃.slot c) := by
    intro c hc
    rw [hloc c]
    exact hpass₃.each c hc
  refine ⟨heach, hpass₃.others, fun k hk => ?_, ?_, hpass₃.settings⟩
  · rcases eq_or_ne k .write with rfl | hne
    · refine agree_nil (by rw [queue_setQueue_self]; rfl) fun c => ?_
      show s₃.flag .write c = false
      by_cases hc : c ∈ (s.queue .write).values
      · obtain ⟨conn, conn', -, hconn', hslot⟩ := onSlot_ok (heach c hc)
        rw [flag_live hslot]
        exact queued_threadedWrite N ws fails hconn'
      · rw [Server.flag, hpass₃.others c hc]
        exact eq_false_of_ne_true fun hflag => hc (hs.mem_iff.mpr hflag)
    · rw [Server.Agree, queue_setQueue_of_ne hne]
      exact hpass₃.agree k hne hk
  · rw [queue_setQueue_of_ne (by decide)]
    exact hpass₃.queue .read (by decide)

end Passes

/-! ### The two ways of writing -/

/-- When a client is served alike for which `writeToClient` leaves the output `out`, and which it
gives up if `err`.  A protected client must be left as it is: nothing is sent, it is not
scheduled to be freed and no event is added.  Any other client with replies left, whose
socket can be registered, must have its write handler already if it was given up, and its
barrier if one is wanted. -/
def Conn.WritesAlike (out : Output) (err fails barrier : Bool) (conn : Conn) : Prop :=
  if conn.isProtected then
    out = conn.out
      ∧ (err = true ∨ clientHasPendingReplies out = true ∧ fails = true →
        conn.queued .close = true ∨ conn.flags.lua = true)
      ∧ (clientHasPendingReplies out = true → fails = false → conn.events.writable = true)
  else
    clientHasPendingReplies out = true → fails = false →
      if err then conn.events.writable = true else barrier = true → conn.events.barrier = true

section Alike

variable {N : ℕ} {conn : Conn} {fails barrier : Bool} {ws : List WriteResult} {mask : Events}
  {x : Output × Sds.Bytes × Bool}

theorem closing_eq_iff : conn.closing = conn ↔ conn.queued .close = true ∨
    conn.flags.lua = true := by
  rw [Conn.closing]
  split
  · next h => exact iff_of_true rfl (Bool.or_eq_true_iff.mp h)
  · next h =>
    rw [Bool.or_eq_true_iff] at h
    refine iff_of_false (fun heq => h (.inl ?_)) h
    rw [← heq]
    exact queued_mark_self

/-- A client that is scheduled to be freed stays so. -/
theorem closing_scheduled : conn.closing.queued .close = true ∨ conn.closing.flags.lua = true := by
  by_cases h : conn.queued .close = true ∨ conn.flags.lua = true
  · rw [closing_eq_iff.mpr h]
    exact h
  · have hmark : conn.closing = conn.mark .close true := if_neg (by rwa [Bool.or_eq_true_iff])
    rw [hmark]
    exact .inl queued_mark_self

theorem out_closing : conn.closing.out = conn.out := by
  rw [Conn.closing]
  split <;> rfl

theorem events_closing : conn.closing.events = conn.events := by
  rw [Conn.closing]
  split <;> rfl

theorem out_installed : (conn.installed mask fails).out = conn.out := by
  rw [Conn.installed]
  split_ifs
  · exact out_closing
  · rfl
  · rfl

theorem events_installed (h : clientHasPendingReplies conn.out = true) :
    (conn.installed mask false).events = aeCreateFileEvent conn.events mask := by
  rw [Conn.installed, if_pos h]
  rfl

theorem aeCreateFileEvent_writable {e : Events} {b : Bool} :
    aeCreateFileEvent e ⟨false, true, b⟩ = ⟨e.readable, true, e.barrier || b⟩ := by
  simp [aeCreateFileEvent]

/-- Where the write handler makes no difference. -/
theorem installed_eq_iff : conn.installed ⟨false, true, false⟩ fails = conn ↔
    (clientHasPendingReplies conn.out = true →
      if fails then conn.queued .close = true ∨ conn.flags.lua = true
        else conn.events.writable = true) := by
  by_cases hpending : clientHasPendingReplies conn.out = true
  · rw [Conn.installed, if_pos hpending, imp_iff_right hpending]
    cases fails with
    | true => exact closing_eq_iff
    | false =>
      have hevents := aeCreateFileEvent_writable (e := conn.events) (b := false)
      rw [if_neg Bool.false_ne_true, if_neg Bool.false_ne_true]
      refine ⟨fun h => ?_, fun h => ?_⟩
      · have hwritable : (aeCreateFileEvent conn.events ⟨false, true, false⟩).writable
            = conn.events.writable :=
          congrArg (fun c => c.events.writable) h
        rw [← hwritable, hevents]
      · have hsame : aeCreateFileEvent conn.events ⟨false, true, false⟩ = conn.events :=
          hevents.trans (by rw [Bool.or_false, ← h])
        rw [hsame]
  · exact iff_of_true (if_neg hpending) fun h => absurd h hpending

/-- Where the barrier makes no difference. -/
theorem installed_barrier_iff :
    conn.installed ⟨false, true, false⟩ fails = conn.installed ⟨false, true, barrier⟩ fails ↔
      (clientHasPendingReplies conn.out = true → fails = false → barrier = true →
        conn.events.barrier = true) := by
  by_cases hpending : clientHasPendingReplies conn.out = true
  · rw [imp_iff_right hpending]
    cases fails with
    | true =>
      refine iff_of_true ?_ fun h => nomatch h
      rw [Conn.installed, Conn.installed]
      rfl
    | false =>
      rw [imp_iff_right rfl]
      refine ⟨fun h hb => ?_, fun h => ?_⟩
      · have hevents := congrArg Conn.events h
        rw [events_installed hpending, events_installed hpending, aeCreateFileEvent_writable,
          aeCreateFileEvent_writable, hb, Bool.or_true] at hevents
        have hbarrier := congrArg Events.barrier hevents
        rwa [Bool.or_false] at hbarrier
      · have hbarrier : (conn.events.barrier || barrier) = (conn.events.barrier || false) := by
          cases barrier with
          | false => rfl
          | true => rw [h rfl, Bool.or_true, Bool.or_false]
        rw [Conn.installed, Conn.installed, aeCreateFileEvent_writable,
          aeCreateFileEvent_writable, hbarrier]
  · exact iff_of_true ((if_neg hpending).trans (if_neg hpending).symm) fun h => absurd h hpending

/-- The I/O threads, given what `writeToClient` does. -/
theorem threadedWrite_eq
    (hw : Networking.writeToClient N conn.flags ws conn.out = .ok x) :
    conn.threadedWrite N ws fails = .ok ((if x.2.2 then
      ((conn.mark .write false).sent x.1 false).closing
      else (conn.mark .write false).sent x.1 false).installed ⟨false, true, false⟩ fails) := by
  have hw : Networking.writeToClient N (conn.mark .write false).flags ws
      (conn.mark .write false).out = .ok x := hw
  obtain ⟨out, data, err⟩ := x
  rw [Conn.threadedWrite, Conn.written, hw]
  cases err <;> rfl

/-- The main thread, given what `writeToClient` does. -/
theorem directWrite_eq (hprot : conn.isProtected = false)
    (hw : Networking.writeToClient N conn.flags ws conn.out = .ok x) :
    conn.directWrite N ws fails barrier = .ok (if x.2.2 then
      ((conn.mark .write false).sent x.1 false).closing
      else ((conn.mark .write false).sent x.1 false).installed ⟨false, true, barrier⟩ fails) := by
  have hw : Networking.writeToClient N (conn.mark .write false).flags ws
      (conn.mark .write false).out = .ok x := hw
  obtain ⟨out, data, err⟩ := x
  rw [Conn.directWrite, Conn.written, hw, hprot]
  cases err <;> rfl

/-- A client that is scheduled to be freed stays so when a handler is installed. -/
theorem installed_scheduled (h : conn.queued .close = true ∨ conn.flags.lua = true) :
    (conn.installed mask fails).queued .close = true ∨
      (conn.installed mask fails).flags.lua = true := by
  rw [Conn.installed]
  split_ifs
  · exact closing_scheduled
  · exact h
  · exact h

/-- When a client is not changed by what the I/O threads do after a write. -/
theorem afterWrite_eq_iff {err : Bool} :
    (if err then conn.closing else conn).installed ⟨false, true, false⟩ fails = conn ↔
      (err = true ∨ clientHasPendingReplies conn.out = true ∧ fails = true →
          conn.queued .close = true ∨ conn.flags.lua = true)
        ∧ (clientHasPendingReplies conn.out = true → fails = false →
          conn.events.writable = true) := by
  by_cases hsched : conn.queued .close = true ∨ conn.flags.lua = true
  · have hsame : (if err then conn.closing else conn) = conn := by
      rw [closing_eq_iff.mpr hsched, ite_self]
    rw [hsame, installed_eq_iff]
    refine ⟨fun h => ⟨fun _ => hsched, fun hp hf => ?_⟩, fun h hp => ?_⟩
    · have hw := h hp
      rwa [hf, if_neg Bool.false_ne_true] at hw
    · split_ifs with hf
      · exact hsched
      · exact h.2 hp (eq_false_of_ne_true hf)
  · cases err with
    | true =>
      -- it would be scheduled to be freed
      refine iff_of_false (fun heq => hsched ?_) fun h => hsched (h.1 (.inl rfl))
      rw [if_pos rfl] at heq
      rw [← heq]
      exact installed_scheduled closing_scheduled
    | false =>
      rw [if_neg Bool.false_ne_true, installed_eq_iff]
      refine ⟨fun h => ⟨fun hor => ?_, fun hp hf => ?_⟩, fun h hp => ?_⟩
      · obtain ⟨hp, hf⟩ := hor.resolve_left Bool.false_ne_true
        have hs := h hp
        rwa [if_pos hf] at hs
      · have hw := h hp
        rwa [hf, if_neg Bool.false_ne_true] at hw
      · split_ifs with hf
        · exact h.1 (.inr ⟨hp, hf⟩)
        · exact h.2 hp (eq_false_of_ne_true hf)

/-- A protected client is left as it is by the main thread. -/
theorem protected_alike_iff (hprot : conn.isProtected = true)
    (hw : Networking.writeToClient N conn.flags ws conn.out = .ok x) :
    conn.threadedWrite N ws fails = conn.directWrite N ws fails barrier ↔
      x.1 = conn.out
        ∧ (x.2.2 = true ∨ clientHasPendingReplies x.1 = true ∧ fails = true →
          conn.queued .close = true ∨ conn.flags.lua = true)
        ∧ (clientHasPendingReplies x.1 = true → fails = false → conn.events.writable = true) := by
  obtain ⟨out, data, err⟩ := x
  have hdirect : conn.directWrite N ws fails barrier = .ok (conn.mark .write false) := if_pos hprot
  rw [threadedWrite_eq hw, hdirect, Except.ok.injEq]
  dsimp only
  by_cases hout : out = conn.out
  · -- then the client is the same but for what is done after the write
    subst hout
    rw [and_iff_right rfl]
    exact @afterWrite_eq_iff (conn.mark .write false) fails err
  · refine iff_of_false (fun heq => hout ?_) fun h => hout h.1
    have hsame := congrArg Conn.out heq
    rw [out_installed] at hsame
    refine Eq.trans ?_ hsame
    split
    · rw [out_closing]
      rfl
    · rfl

theorem unprotected_alike_iff (hprot : conn.isProtected = false)
    (hw : Networking.writeToClient N conn.flags ws conn.out = .ok x) :
    conn.threadedWrite N ws fails = conn.directWrite N ws fails barrier ↔
      (clientHasPendingReplies x.1 = true → fails = false →
        if x.2.2 then conn.events.writable = true else barrier = true →
          conn.events.barrier = true) := by
  obtain ⟨out, data, err⟩ := x
  rw [threadedWrite_eq hw, directWrite_eq hprot hw, Except.ok.injEq]
  cases err with
  | false => exact installed_barrier_iff
  | true =>
    -- it is scheduled to be freed already
    dsimp only
    rw [if_pos rfl, if_pos rfl, if_pos rfl, installed_eq_iff, out_closing, events_closing]
    refine imp_congr_right fun _ => ?_
    cases fails with
    | false => exact (imp_iff_right rfl).symm
    | true => exact iff_of_true closing_scheduled fun h => nomatch h

/-- A client is served alike exactly if `Conn.WritesAlike`. -/
theorem writesAlike_iff (hw : Networking.writeToClient N conn.flags ws conn.out = .ok x) :
    conn.threadedWrite N ws fails = conn.directWrite N ws fails barrier ↔
      conn.WritesAlike x.1 x.2.2 fails barrier := by
  rw [Conn.WritesAlike]
  cases hprot : conn.isProtected with
  | true => exact protected_alike_iff hprot hw
  | false => exact unprotected_alike_iff hprot hw

end Alike

/-- Two calls leave the same clients, with the same output buffers, flags and events,
and the same clients in `clients_to_close`. -/
def SameWrites (x y : Except Stop Server) : Prop :=
  ∃ s₁ s₂, x = .ok s₁ ∧ y = .ok s₂ ∧ s₁.slot = s₂.slot
    ∧ ∀ c, c ∈ (s₁.queue .close).values ↔ c ∈ (s₂.queue .close).values

section Same

variable {N : ℕ} {s : Server}

/-- With enough clients the threads are used. -/
theorem usingThreads_eq (r : Reads) (ws : ℕ → List WriteResult) (fails : ℕ → Bool)
    (order : Schedule) (h : 1 < s.ioThreadsNum ∧ s.ioThreadsNum * 2 ≤ listLength (s.queue .write)) :
    handleClientsWithPendingWritesUsingThreads N r ws fails order s
      = writeUsingThreads N ws fails order { s with ioThreadsActive := true } := by
  rw [handleClientsWithPendingWritesUsingThreads, if_neg (by omega), stopThreadedIOIfNeeded,
    if_neg (by omega), if_neg (by omega)]
  rfl

/-- Clients whose outputs are in order are all served. -/
theorem served_ok {f : ℕ → Conn → Except Stop Conn} {s₀ : Server} {x : Except Stop Server}
    (hx : match x with
      | .error e => ∃ c ∈ (s₀.queue .write).values, onSlot (f c) (s₀.slot c) = .error e
      | .ok s' => Serves f s₀ s')
    (hs : s₀.Agree .write)
    (hf : ∀ c ∈ (s₀.queue .write).values, ∀ conn, s₀.slot c = .live conn →
      ∃ conn', f c conn = .ok conn') :
    ∃ s', x = .ok s' ∧ Serves f s₀ s' := by
  rcases x with e | s'
  · obtain ⟨c, hc, herr⟩ := hx
    obtain ⟨conn, hconn, -⟩ := live_of_flag (hs.mem_iff.mp hc)
    obtain ⟨conn', hok⟩ := hf c hc conn hconn
    rw [hconn] at herr
    exact nomatch (onSlot_error herr).symm.trans hok
  · exact ⟨s', rfl, hx⟩

/-- What becomes of a client that is served. -/
theorem Serves.live {f : ℕ → Conn → Except Stop Conn} {s' : Server} {c : ℕ} {conn : Conn}
    (h : Serves f s s') (hc : c ∈ (s.queue .write).values) (hconn : s.slot c = .live conn) :
    (f c conn).map Slot.live = .ok (s'.slot c) := by
  have heach := h.each c hc
  rwa [hconn] at heach

theorem map_live_inj {x y : Except Stop Conn} (h : x.map Slot.live = y.map Slot.live) : x = y := by
  rcases x with e | conn <;> rcases y with e' | conn'
  · exact congrArg _ (Except.error.inj h)
  · cases h
  · cases h
  · exact congrArg _ (Slot.live.inj (Except.ok.inj h))

/-- **Threaded and direct writing** do the same, for given results of `write(2)` and
`aeCreateFileEvent` and any order in which the threads work, exactly if every client of the
queue is served alike.  No deferred length is open when the queue is served. -/
theorem threaded_writes_same_iff (N : ℕ) (s : Server) (hwrite : s.Agree .write)
    (hclose : s.Agree .close) (hout : ∀ c ∈ (s.queue .write).values, ∀ conn, s.slot c = .live conn →
      conn.out.Wf ∧ conn.out.holes = [])
    (hthreads : 1 < s.ioThreadsNum ∧ s.ioThreadsNum * 2 ≤ listLength (s.queue .write))
    (r : Reads) (ws : ℕ → List WriteResult) (fails : ℕ → Bool) (order : Schedule) :
    SameWrites (handleClientsWithPendingWritesUsingThreads N r ws fails order s)
        (handleClientsWithPendingWrites N ws fails s)
    ↔ ∀ c ∈ (s.queue .write).values, ∀ conn, s.slot c = .live conn →
      ∀ x, Networking.writeToClient N conn.flags (ws c) conn.out = .ok x →
        conn.WritesAlike x.1 x.2.2 (fails c) (s.aofOn && s.aofFsyncAlways) := by
  have hrun : ∀ c ∈ (s.queue .write).values, ∀ conn, s.slot c = .live conn →
      ∃ x, Networking.writeToClient N conn.flags (ws c) conn.out = .ok x := by
    intro c hc conn hconn
    obtain ⟨hw, hholes⟩ := hout c hc conn hconn
    obtain ⟨out', data, free, hrun, -⟩ :=
      Networking.writeToClient_spec N conn.flags (ws c) hw hholes
    exact ⟨_, hrun⟩
  -- both calls serve each client on its own
  obtain ⟨s₁, hrun₁, hserves₁⟩ :
      ∃ s', handleClientsWithPendingWritesUsingThreads N r ws fails order s = .ok s'
        ∧ Serves (threadedWrite N ws fails) { s with ioThreadsActive := true } s' := by
    rw [usingThreads_eq r ws fails order hthreads]
    refine served_ok (writeUsingThreads_serves N ws fails order hwrite) hwrite
      fun c hc conn hconn => ?_
    obtain ⟨x, hx⟩ := hrun c hc conn hconn
    exact ⟨_, threadedWrite_eq hx⟩
  obtain ⟨s₂, hrun₂, hserves₂⟩ : ∃ s', handleClientsWithPendingWrites N ws fails s = .ok s'
      ∧ Serves (directWrite N ws fails s) s s' := by
    refine served_ok (handleClientsWithPendingWrites_serves N ws fails hwrite) hwrite
      fun c hc conn hconn => ?_
    obtain ⟨x, hx⟩ := hrun c hc conn hconn
    cases hprot : conn.isProtected with
    | true => exact ⟨_, if_pos hprot⟩
    | false => exact ⟨_, directWrite_eq hprot hx⟩
  have heach : ∀ c ∈ (s.queue .write).values, ∀ conn, s.slot c = .live conn →
      ∀ x, Networking.writeToClient N conn.flags (ws c) conn.out = .ok x →
        (s₁.slot c = s₂.slot c ↔
          conn.WritesAlike x.1 x.2.2 (fails c) (s.aofOn && s.aofFsyncAlways)) := by
    intro c hc conn hconn x hx
    have h₁ := hserves₁.live hc hconn
    have h₂ := hserves₂.live hc hconn
    rw [← writesAlike_iff hx]
    refine ⟨fun heq => map_live_inj (h₁.trans ?_), fun heq => Except.ok.inj (h₁.symm.trans ?_)⟩
    · rw [heq]
      exact h₂.symm
    · exact (congrArg (Except.map Slot.live) heq).trans h₂
  constructor
  · rintro ⟨t₁, t₂, ht₁, ht₂, hslot, -⟩ c hc conn hconn x hx
    obtain rfl : s₁ = t₁ := Except.ok.inj (hrun₁.symm.trans ht₁)
    obtain rfl : s₂ = t₂ := Except.ok.inj (hrun₂.symm.trans ht₂)
    exact (heach c hc conn hconn x hx).mp (congrFun hslot c)
  · intro h
    have hslot : s₁.slot = s₂.slot := by
      funext c
      by_cases hc : c ∈ (s.queue .write).values
      · obtain ⟨conn, hconn, -⟩ := live_of_flag (hwrite.mem_iff.mp hc)
        obtain ⟨x, hx⟩ := hrun c hc conn hconn
        exact (heach c hc conn hconn x hx).mpr (h c hc conn hconn x hx)
      · exact (hserves₁.others c hc).trans (hserves₂.others c hc).symm
    refine ⟨s₁, s₂, hrun₁, hrun₂, hslot, fun c => ?_⟩
    have hflag : s₁.flag .close c = s₂.flag .close c := by rw [Server.flag, hslot, Server.flag]
    rw [(hserves₁.agree .close hclose).mem_iff, (hserves₂.agree .close hclose).mem_iff, hflag]

theorem length_plus_le : ([43] : Sds.Bytes).length ≤ protoReplyChunkBytes := by decide

theorem fresh_noSocket : (freshFlags 7).lua = true ∨ (freshFlags 7).module = true →
    (freshFlags 7).fd = -1 := by
  rintro (h | h) <;> cases h

/-- A client with a reply to send. -/
def waitingClient (isProtected : Bool) : Conn :=
  { Conn.fresh (freshFlags 7) fresh_noSocket with
    out := ⟨[43], length_plus_le, [], 0, 0⟩
    queued := fun k => k = .write
    isProtected := isProtected
    events := ⟨!isProtected, false, false⟩ }

/-- Four clients that are queued for writing, on a server with two I/O threads. -/
def fourClients (isProtected aof : Bool) : Server :=
  .uniform ⟨false, 2, true, true, aof, aof, .emptying⟩ 4 .write (waitingClient isProtected)

theorem fourClients_agree (isProtected aof : Bool) (k : Queue) :
    (fourClients isProtected aof).Agree k :=
  uniform_agree rfl (fun _ hk => decide_eq_false hk) k

/-- Four clients on a server that does fsync always; what they have to send is sent at once, so
that no barrier is wanted. -/
theorem threaded_writes_same_iff_four_clients :
    SameWrites
      (handleClientsWithPendingWritesUsingThreads 65536 ⟨[], fun _ => [], fun _ => []⟩
        (fun _ => [.accepts 1 false]) (fun _ => false) (.dealt 2 (by decide))
          (fourClients false true))
      (handleClientsWithPendingWrites 65536 (fun _ => [.accepts 1 false]) (fun _ => false)
        (fourClients false true)) := by
  refine (threaded_writes_same_iff 65536 (fourClients false true)
    (fourClients_agree false true .write) (fourClients_agree false true .close)
    (fun c _ conn hconn => ?_) (by decide) ⟨[], fun _ => [], fun _ => []⟩ (fun _ =>
      [.accepts 1 false])
    (fun _ => false) (.dealt 2 (by decide))).mpr fun c _ conn hconn x hx => ?_
  · rw [uniform_live hconn]
    exact ⟨⟨rfl, .inl rfl, List.nodup_nil⟩, rfl⟩
  · rw [uniform_live hconn] at hx ⊢
    obtain rfl := Except.ok.inj hx
    exact fun h => nomatch h

/-- The buffer of a client, its events, and whether it is to be freed. -/
def Server.seen (s : Server) (c : ℕ) : Option (Sds.Bytes × Events × Bool) :=
  match s.slot c with
  | .live conn => some (conn.out.buf, conn.events, conn.queued .close)
  | _ => none

/-- The first of four clients after the threads, or the main thread, have served them. -/
def seenWrites (threads isProtected aof : Bool) (ws : List WriteResult) :
    Option (Sds.Bytes × Events × Bool) :=
  let s := fourClients isProtected aof
  (if threads then
    handleClientsWithPendingWritesUsingThreads 65536 ⟨[], fun _ => [], fun _ => []⟩ (fun _ => ws)
      (fun _ => false) (.dealt 2 (by decide)) s
  else handleClientsWithPendingWrites 65536 (fun _ => ws) (fun _ => false) s).toOption.bind fun s =>
    s.seen 0

/-- The threads write to a protected client, they register a client without the barrier,
and they register one whose socket has failed. -/
theorem threaded_writes_differ :
    seenWrites true true false [.accepts 1 false] = some ([], ⟨false, false, false⟩, false)
    ∧ seenWrites false true false [.accepts 1 false] = some ([43], ⟨false, false, false⟩, false)
    ∧ seenWrites true false true [.eagain] = some ([43], ⟨true, true, false⟩, false)
    ∧ seenWrites false false true [.eagain] = some ([43], ⟨true, true, true⟩, false)
    ∧ seenWrites true false false [.error] = some ([43], ⟨true, true, false⟩, true)
    ∧ seenWrites false false false [.error] = some ([43], ⟨true, false, false⟩, true) := by
  decide +kernel

end Same

end ClientQueues
