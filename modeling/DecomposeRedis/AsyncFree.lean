/-
The loop of `freeClientsInAsyncFreeQueue` (networking.c).

The loop runs while the queue is not empty, and its body calls `freeClient`, which puts a
protected client at the end of the same queue.

* `freeClient_result`: what `freeClient` does to a client, case by case.
* `freeFirst_turn`: a turn takes the first client out of the queue, or moves it to the end.
* `drainLoop_never_ends`: with a protected client in the queue there is always one more turn.
* `drains_iff`: the loop drains the queue as it is meant to iff no client in it is protected.
-/
import DecomposeRedis.QueueSteps

namespace ClientQueues

open Networking Adlist FlagQueue Function

/-- The loop, with the clients that were handled in the order of the turns. -/
def drainLoop : ℕ → Server → Except Stop (Server × List ℕ)
  | 0, s => if listLength (s.queue .close) = 0 then .ok (s, []) else .error .endless
  | fuel + 1, s =>
    match listFirst (s.queue .close) with
    | none => .ok (s, [])
    | some (_, c) => (freeFirst s 0).bind fun s => (drainLoop fuel s).map fun x => (x.1, c :: x.2)

section

variable {s s' : Server} {c node : ℕ} {conn : Conn}

/-! ### What is done to a client -/

/-- A client is unlinked and freed. -/
theorem unlink_and_free (hclose : Linked (s.queue .close) (s.flag .close)) {s₁ : Server}
    (hc : s.slot c = .live conn) (hrun : unlinkClient s c = .ok s₁) (htouch : ∀ p, Touch p c s s₁)
    (hlive : s₁.slot c = .live conn.unlinked) (hqueue : s₁.queue .close = s.queue .close) :
    ∃ s', ((unlinkClient s c).bind fun s => (unqueue .close s c).map
      fun s => { s with slot := update s.slot c .freed }) = .ok s' ∧
      (∀ p, Touch p c s s') ∧ s'.slot c = .freed ∧ (conn.queued .close = false →
        s'.queue .close = s.queue .close) := by
  have hflag : s₁.flag .close = s.flag .close := by
    funext d
    rcases eq_or_ne d c with rfl | hne
    · rw [flag_live hlive, flag_live hc, queued_unlinked_close]
    · rw [Server.flag, (htouch False).frame d hne, Server.flag]
  have hlinked : Linked (s₁.queue .close) (s₁.flag .close) := by
    rw [hqueue, hflag]
    exact hclose
  obtain ⟨s₂, hrun₂, htouch₂, hlive₂, -⟩ := unqueue_spec hlinked hlive
  have hfree : ∀ p, Touch p c s₂ { s₂ with slot := update s₂.slot c .freed } := by
    refine fun p => .free hlive₂ fun k => ?_
    rcases eq_or_ne k .close with rfl | hne
    · exact queued_mark_self
    · exact (queued_mark_of_ne hne).trans (queued_unlinked hne)
  refine ⟨_, by rw [hrun, Except.bind, hrun₂]; rfl,
    fun p => ((htouch p).trans (htouch₂ p)).trans (hfree p), update_self .., ?_⟩
  intro hno
  -- the client is in no queue any more
  have hsame : unqueue .close s₁ c = .ok s₁ := by
    rw [unqueue, get_live hlive, Except.bind, queued_unlinked_close, hno]
    rfl
  obtain rfl : s₁ = s₂ := Except.ok.inj (hsame.symm.trans hrun₂)
  exact hqueue

/-- What `freeClient` does to a client. -/
inductive FreeResult (s : Server) (c : ℕ) (conn : Conn) (s' : Server) : Prop
  | isProtected (h : conn.isProtected = true) (hrun : freeClientAsync s c = .ok s')
      (hslot : s'.slot c = .live conn.closing)
  | cached (h : conn.isProtected = false) (hmaster : s.master = true ∧ conn.flags.master = true)
      (hslot : s'.slot c = .live (s.cacheMaster.apply conn.unlinked))
      (hqueue : s'.queue .close = s.queue .close)
  | freed (h : conn.isProtected = false) (hslot : s'.slot c = .freed)
      (hqueue : conn.queued .close = false → s'.queue .close = s.queue .close)

theorem freeClient_result (hwrite : Linked (s.queue .write) (s.flag .write)) (hfound : s.Found)
    (hclose : Linked (s.queue .close) (s.flag .close)) (hc : s.slot c = .live conn) :
    ∃ s', freeClient s c = .ok s' ∧ (∀ p, Touch p c s s') ∧ FreeResult s c conn s' := by
  have hunlink : ∃ s₁, unlinkClient s c = .ok s₁ ∧ (∀ p, Touch p c s s₁) ∧
      s₁.slot c = .live conn.unlinked ∧
      s₁.queue .close = s.queue .close := (unlinkClient_cases hwrite hc).resolve_right fun h =>
        h.2 hfound
  obtain ⟨s₁, hrun, htouch, hlive, hqueue⟩ := hunlink
  rw [freeClient, get_live hc, Except.bind]
  split_ifs with hprot hmaster
  · obtain ⟨s₂, hrun₂, hbecomes⟩ := freeClientAsync_spec hc
    exact ⟨s₂, hrun₂, hbecomes.touch, .isProtected hprot hrun₂ hbecomes.live⟩
  · rw [Bool.and_eq_true, Bool.and_eq_true] at hmaster
    obtain ⟨s₂, hrun₂, htouch₂, hlive₂, hqueue₂⟩ :=
      (replicationCacheMaster_cases hwrite hc).resolve_right fun h => h.2 hfound
    exact ⟨s₂, hrun₂, htouch₂, .cached (eq_false_of_ne_true hprot) hmaster.1 hlive₂ hqueue₂⟩
  · obtain ⟨s₂, hrun₂, htouch₂, hslot, hsame⟩ := unlink_and_free hclose hc hrun htouch hlive hqueue
    exact ⟨s₂, hrun₂, htouch₂, .freed (eq_false_of_ne_true hprot) hslot hsame⟩

/-! ### One turn of the loop -/

theorem mark_mark_close (h : conn.queued .close = true) :
    (conn.mark .close false).mark .close true = conn := by
  have hqueued : update (update conn.queued .close false) .close true = conn.queued := by
    rw [update_idem, ← h, update_eq_self]
  rw [Conn.mark, Conn.mark]
  simp only [hqueued]

/-- A client is freed, or it was the master and is kept without its socket. -/
def Handled (s s' : Server) (c : ℕ) : Prop :=
  s'.slot c = .freed ∨ ∃ conn, s.slot c = .live conn ∧ s.master = true ∧ conn.flags.master = true ∧
    s'.slot c = .live (s.cacheMaster.apply (conn.mark .close false).unlinked)

/-- What a turn does to the first client of the queue. -/
inductive Turn (s : Server) (c : ℕ) (rest : List (ℕ × ℕ)) (conn : Conn) (s' : Server) : Prop
  | removes (h : conn.isProtected = true → conn.flags.lua = true)
      (hnodes : (s'.queue .close).nodes = rest)
      (hslot : conn.isProtected = false → Handled s s' c)
  | rotates (h : conn.isProtected = true ∧ conn.flags.lua = false) (hslot : s'.slot c = .live conn)
      (hvalues : (s'.queue .close).values = rest.map Prod.snd ++ [c])

/-- The flag of a client is cleared before it is freed. -/
theorem linked_cleared (hs : s.Ready) (hfound : s.Found) (hc : s.slot c = .live conn) :
    Linked ((s.set c (conn.mark .close false)).queue .write)
      ((s.set c (conn.mark .close false)).flag .write) ∧
      (s.set c (conn.mark .close false)).Found ∧
      Linked ((s.set c (conn.mark .close false)).queue .close)
        ((s.set c (conn.mark .close false)).flag .close) := by
  have hflag : ∀ k, k ≠ .close → (s.set c (conn.mark .close false)).flag k = s.flag k :=
    fun k hk => flag_set_of_eq hc (queued_mark_of_ne hk)
  refine ⟨?_, ?_, ?_⟩
  · rw [queue_set, hflag .write (by decide)]
    exact (hs .write (by decide)).linked
  · rw [Server.Found, queue_set, hflag .read (by decide)]
    exact hfound
  · rw [queue_set, flag_set, queued_mark_self]
    intro d hd
    rcases eq_or_ne d c with rfl | hne
    · rw [update_self] at hd
      cases hd
    · rw [update_of_ne hne] at hd
      exact (hs .close (by decide)).linked d hd

theorem freeFirst_turn (hs : s.Ready) (hfound : s.Found) {rest : List (ℕ × ℕ)} {i : ℕ}
    (hnodes : (s.queue .close).nodes = (node, c) :: rest) :
    ∃ conn s', s.slot c = .live conn ∧ freeFirst s i = .ok s' ∧
      (∀ d, d ≠ c → s'.slot d = s.slot d) ∧
      s'.toSettings = s.toSettings ∧ Turn s c rest conn s' := by
  have hmem : (node, c) ∈ (s.queue .close).nodes := hnodes ▸ List.mem_cons_self
  obtain ⟨conn, hc, hqueued⟩ := (hs .close (by decide)).live hmem
  obtain ⟨s₀, hs₀⟩ : ∃ s₀, s.set c (conn.mark .close false) = s₀ := ⟨_, rfl⟩
  have hc₀ : s₀.slot c = .live (conn.mark .close false) := hs₀ ▸ slot_set_self
  have hqueue₀ : s₀.queue = s.queue := by rw [← hs₀, queue_set]
  obtain ⟨hwrite, hfound₀, hclose⟩ := linked_cleared hs hfound hc
  rw [hs₀] at hwrite hfound₀ hclose
  obtain ⟨s₂, hrun, htouch, hresult⟩ := freeClient_result hwrite hfound₀ hclose hc₀
  have hframe : ∀ d, d ≠ c → s₂.slot d = s.slot d := by
    intro d hd
    rw [(htouch False).frame d hd, ← hs₀, slot_set_of_ne hd]
  have hsettings : s₂.toSettings = s.toSettings := (htouch False).settings.trans (hs₀ ▸ rfl)
  -- the node of the client is still there
  have hfinish : ∀ q, s₂.queue .close = q → (node, c) ∈ q.nodes →
      freeFirst s i = .ok (s₂.setQueue .close (q.without node)) := by
    intro q hq hmem'
    rw [freeFirst, listFirst, hnodes]
    dsimp only [List.head?_cons]
    rw [get_live hc, Except.bind, hs₀, hrun, Except.bind, hq, listDelNode_of_mem hmem']
  have hrest : ((s.queue .close).without node).nodes = rest :=
    nodes_without_of_split (show (s.queue .close).nodes = [] ++ (node, c) :: rest from hnodes)
  cases hresult with
  | cached h hmaster hslot hqueue =>
    rw [hqueue₀] at hqueue
    refine ⟨conn, _, hc, hfinish _ hqueue hmem, hframe, hsettings,
      .removes (fun hp => ?_) ?_ fun _ => .inr ?_⟩
    · exact absurd (h.symm.trans hp) (by decide)
    · rw [queue_setQueue_self]
      exact hrest
    · rw [← hs₀] at hmaster hslot
      exact ⟨conn, hc, hmaster.1, hmaster.2, hslot⟩
  | freed h hslot hqueue =>
    have hqueue := hqueue queued_mark_self
    rw [hqueue₀] at hqueue
    refine ⟨conn, _, hc, hfinish _ hqueue hmem, hframe, hsettings,
      .removes (fun hp => ?_) ?_ fun _ => .inl hslot⟩
    · exact absurd (h.symm.trans hp) (by decide)
    · rw [queue_setQueue_self]
      exact hrest
  | isProtected h hrun' hslot =>
    rw [freeClientAsync, get_live hc₀, Except.bind] at hrun'
    by_cases hlua : conn.flags.lua = true
    · -- the client of the scripts is not put into the queue again
      rw [if_pos (by rw [Bool.or_eq_true]; exact .inr hlua)] at hrun'
      obtain rfl := Except.ok.inj hrun'
      have hqueue : s₀.queue .close = s.queue .close := congrFun hqueue₀ _
      refine ⟨conn, _, hc, hfinish _ hqueue hmem, hframe, hsettings,
        .removes (fun _ => hlua) ?_ fun hp => ?_⟩
      · rw [queue_setQueue_self]
        exact hrest
      · exact absurd (h.symm.trans hp) (by decide)
    · have hlua' : conn.flags.lua = false := eq_false_of_ne_true hlua
      have hnot : ¬ ((conn.mark .close false).queued .close || (conn.mark .close false).flags.lua)
          = true := by
        rw [queued_mark_self, Bool.false_or]
        exact hlua
      rw [if_neg hnot, hqueue₀] at hrun'
      obtain rfl := Except.ok.inj hrun'
      have hmem' : (node, c) ∈ (listAddNodeTail (s.queue .close) c).nodes :=
        List.mem_append_left _ hmem
      refine ⟨conn, _, hc, hfinish _ queue_setQueue_self hmem', hframe, hsettings,
        .rotates ⟨h, hlua'⟩ ?_ ?_⟩
      · rw [slot_setQueue, slot_setQueue, slot_set_self, mark_mark_close hqueued]
      · have hsplit : (listAddNodeTail (s.queue .close) c).nodes = [] ++ (node, c) ::
            (rest ++ [((s.queue .close).fresh, c)]) := by
          rw [nodes_listAddNodeTail, hnodes]
          rfl
        rw [queue_setQueue_self, NodeList.values, nodes_without_of_split hsplit]
        simp

/-- The queues are in order after a turn. -/
theorem freeFirst_ready (hs : s.Ready) (hfound : s.Found) {i : ℕ} (h : freeFirst s i = .ok s') :
    s'.Ready ∧ s'.Found := by
  have hsane := freeFirst_sane hs i
  rw [h] at hsane
  exact ⟨Server.Later.ready (Server.Next.toLater hsane) hs, Server.Next.found hsane hfound⟩

/-! ### The loop -/

theorem drainLoop_cons {rest : List (ℕ × ℕ)} (hnodes : (s.queue .close).nodes = (node, c) :: rest)
    (fuel : ℕ) :
    drainLoop (fuel + 1) s = (freeFirst s 0).bind fun s => (drainLoop fuel s).map fun x =>
      (x.1, c :: x.2) := by
  rw [drainLoop, listFirst, hnodes]
  rfl

/-- When the loop ends, the queue is empty. -/
theorem drainLoop_empties (fuel : ℕ) :
    ∀ {s : Server} {x : Server × List ℕ}, drainLoop fuel s = .ok x →
    (x.1.queue .close).nodes = [] := by
  induction fuel with
  | zero =>
    intro s x h
    rw [drainLoop] at h
    split_ifs at h with hlength
    obtain rfl := Except.ok.inj h
    exact List.length_eq_zero_iff.mp hlength
  | succ fuel ih =>
    intro s x h
    rcases hnodes : (s.queue .close).nodes with _ | ⟨⟨node, c⟩, rest⟩
    · rw [drainLoop, listFirst, hnodes] at h
      obtain rfl := Except.ok.inj h
      exact hnodes
    · rw [drainLoop_cons hnodes] at h
      obtain ⟨s₁, hrun, h⟩ := Jobs.bind_eq_ok h
      obtain ⟨y, hloop, rfl⟩ := Jobs.map_eq_ok h
      show (y.1.queue .close).nodes = []
      exact ih hloop

/-- Some client in the queue is protected, and it is not that of the scripts. -/
def Stuck (s : Server) : Prop :=
  ∃ c ∈ (s.queue .close).values, ∃ conn, s.slot c = .live conn ∧ conn.isProtected = true ∧
    conn.flags.lua = false

/-- A protected client stays in the queue. -/
theorem Stuck.turn (hs : s.Ready) (hfound : s.Found) (h : Stuck s) :
    ∃ s', freeFirst s 0 = .ok s' ∧ Stuck s' := by
  obtain ⟨d, hd, conn, hslot, hprot, hlua⟩ := h
  rcases hnodes : (s.queue .close).nodes with _ | ⟨⟨node, c⟩, rest⟩
  · rw [NodeList.values, hnodes] at hd
    exact absurd hd List.not_mem_nil
  obtain ⟨conn₁, s', hc, hrun, hframe, -, hturn⟩ := freeFirst_turn hs hfound hnodes
  refine ⟨s', hrun, ?_⟩
  rw [NodeList.values, hnodes, List.map_cons, List.mem_cons] at hd
  rcases eq_or_ne d c with rfl | hne
  · obtain rfl : conn = conn₁ := Slot.live.inj (hslot.symm.trans hc)
    cases hturn with
    | removes h _ _ => exact absurd (h hprot) (by rw [hlua]; decide)
    | rotates _ hslot' hvalues =>
      exact ⟨d, hvalues ▸ List.mem_append_right _ (List.mem_singleton_self d), conn, hslot',
        hprot, hlua⟩
  · have hd : d ∈ rest.map Prod.snd := hd.resolve_left hne
    refine ⟨d, ?_, conn, (hframe d hne).trans hslot, hprot, hlua⟩
    cases hturn with
    | removes _ hnodes' _ =>
      rw [NodeList.values, hnodes']
      exact hd
    | rotates _ _ hvalues => exact hvalues ▸ List.mem_append_left _ hd

/-- The loop never ends with such a client. -/
theorem drainLoop_never_ends (fuel : ℕ) : ∀ {s : Server}, s.Ready → s.Found → Stuck s →
    drainLoop fuel s = .error .endless := by
  have hcons : ∀ {s : Server}, Stuck s → ∃ node c rest,
      (s.queue .close).nodes = (node, c) :: rest := by
    rintro s ⟨d, hd, -⟩
    rcases hnodes : (s.queue .close).nodes with _ | ⟨⟨node, c⟩, rest⟩
    · rw [NodeList.values, hnodes] at hd
      exact absurd hd List.not_mem_nil
    · exact ⟨node, c, rest, rfl⟩
  induction fuel with
  | zero =>
    intro s _ _ h
    obtain ⟨node, c, rest, hnodes⟩ := hcons h
    rw [drainLoop, listLength, hnodes]
    rfl
  | succ fuel ih =>
    intro s hs hfound h
    obtain ⟨node, c, rest, hnodes⟩ := hcons h
    obtain ⟨s', hrun, h'⟩ := h.turn hs hfound
    obtain ⟨hs', hfound'⟩ := freeFirst_ready hs hfound hrun
    rw [drainLoop_cons hnodes, hrun, Except.bind, ih hs' hfound' h']
    rfl

/-- Without protected clients each client has its turn, and the queue is empty then. -/
theorem drainLoop_handles (nodes : List (ℕ × ℕ)) :
    ∀ {s : Server}, s.Ready → s.Found → (s.queue .close).nodes = nodes →
    (∀ c ∈ nodes.map Prod.snd, ∀ conn, s.slot c = .live conn → conn.isProtected = false) →
    ∃ s', drainLoop nodes.length s = .ok (s', nodes.map Prod.snd) ∧
      (∀ c ∈ nodes.map Prod.snd, Handled s s' c) ∧
      ∀ c ∉ nodes.map Prod.snd, s'.slot c = s.slot c := by
  induction nodes with
  | nil =>
    intro s _ _ hnodes _
    refine ⟨s, ?_, fun c hc => absurd hc List.not_mem_nil, fun c _ => rfl⟩
    rw [List.length_nil, drainLoop, listLength, hnodes]
    rfl
  | cons x rest ih =>
    obtain ⟨node, c⟩ := x
    intro s hs hfound hnodes hunprotected
    have hnodup := (hs .close (by decide)).nodup
    rw [NodeList.values, hnodes, List.map_cons, List.nodup_cons] at hnodup
    obtain ⟨conn, s₁, hc, hrun, hframe, hsettings, hturn⟩ := freeFirst_turn hs hfound hnodes
    have hprot := hunprotected c List.mem_cons_self conn hc
    obtain ⟨hs₁, hfound₁⟩ := freeFirst_ready hs hfound hrun
    cases hturn with
    | rotates h _ _ => exact absurd (hprot.symm.trans h.1) (by decide)
    | removes _ hnodes₁ hslot =>
      have hne : ∀ d ∈ rest.map Prod.snd, d ≠ c := fun d hd => ne_of_mem_of_not_mem hd hnodup.1
      obtain ⟨s', hloop, hhandled, hothers⟩ := ih hs₁ hfound₁ hnodes₁ fun d hd conn' hd' =>
        hunprotected d (List.mem_cons_of_mem _ hd) conn' ((hframe d (hne d hd)).symm.trans hd')
      refine ⟨s', ?_, fun d hd => ?_, fun d hd => ?_⟩
      · rw [List.length_cons, drainLoop_cons hnodes, hrun, Except.bind, hloop]
        rfl
      · rcases List.mem_cons.mp hd with rfl | hd
        · -- the later turns leave the client as it is
          have hlater := hothers d hnodup.1
          rw [Handled, hlater]
          exact hslot hprot
        · rcases hhandled d hd with hfreed | ⟨conn', hlive, hmaster, hflag, hkept⟩
          · exact .inl hfreed
          · rw [hframe d (hne d hd)] at hlive
            rw [hsettings] at hmaster hkept
            exact .inr ⟨conn', hlive, hmaster, hflag, hkept⟩
      · rw [List.map_cons, List.mem_cons, not_or] at hd
        rw [hothers d hd.2, hframe d hd.1]

/-- The loop ends, it handles each client that is not protected once, and a protected client
stays in the queue. -/
def Drains (s : Server) : Prop :=
  ∃ fuel s' log, drainLoop fuel s = .ok (s', log) ∧
    ∀ c ∈ (s.queue .close).values, ∀ conn, s.slot c = .live conn →
      if conn.isProtected then s'.isLive c = true ∧ c ∈ (s'.queue .close).values
      else log.count c = 1 ∧ Handled s s' c

/-- **The queue is drained iff no client in it is protected.** -/
theorem drains_iff (hs : s.Ready) (hfound : s.Found) :
    Drains s ↔ ∀ c ∈ (s.queue .close).values, ∀ conn, s.slot c = .live conn →
      conn.isProtected = false := by
  constructor
  · rintro ⟨fuel, s', log, hloop, hclients⟩ c hmem conn hc
    by_contra hprot
    have h := hclients c hmem conn hc
    rw [if_pos (eq_true_of_ne_false hprot), NodeList.values, drainLoop_empties fuel hloop] at h
    exact absurd h.2 List.not_mem_nil
  · intro hunprotected
    obtain ⟨s', hloop, hhandled, -⟩ := drainLoop_handles _ hs hfound rfl hunprotected
    refine ⟨_, s', _, hloop, fun c hmem conn hc => ?_⟩
    rw [if_neg (by rw [hunprotected c hmem conn hc]; decide)]
    exact ⟨List.count_eq_one_of_mem (hs .close (by decide)).nodup hmem, hhandled c hmem⟩

end

/-- A server without clients, that has no master. -/
def emptyServer : Server := .init ⟨false, 1, false, false, false, false, .emptying⟩

/-- What commands make of it has its queues in order. -/
theorem emptyServer_acts {s : Server} {l : List Act} (h : acts 1 emptyServer l = .ok s) :
    s.Ready ∧ s.Found := by
  have hready : emptyServer.Ready := fun k _ => init_agree _ k
  have hsane := acts_sane (N := 1) l hready
  rw [h] at hsane
  exact ⟨Server.Later.ready (Server.Next.toLater hsane) hready,
    Server.Next.found hsane (init_agree _ .read).linked⟩

/-- A protected client that is to be closed is put into the queue again and again. -/
theorem protected_client_loops :
    ∃ s, acts 1 emptyServer [.createClient 0 5, .protectClient 0, .freeClientAsync 0] = .ok s ∧
      ∀ fuel, drainLoop fuel s = .error .endless := by
  refine ⟨_, rfl, fun fuel => ?_⟩
  obtain ⟨hready, hfound⟩ := emptyServer_acts
    (show acts 1 emptyServer [.createClient 0 5, .protectClient 0, .freeClientAsync 0]
      = .ok _ from rfl)
  exact drainLoop_never_ends fuel hready hfound ⟨0, List.mem_singleton_self 0, _, rfl, rfl, rfl⟩

theorem drains_iff_two :
    ∃ s, acts 1 emptyServer [.createClient 0 5, .createClient 1 6, .freeClientAsync 1,
      .freeClientAsync 0] = .ok s ∧
      (Drains s ↔ ∀ c ∈ (s.queue .close).values, ∀ conn, s.slot c = .live conn →
        conn.isProtected = false) := by
  refine ⟨_, rfl, ?_⟩
  have hs := emptyServer_acts (show acts 1 emptyServer
    [.createClient 0 5, .createClient 1 6, .freeClientAsync 1, .freeClientAsync 0] = .ok _ from rfl)
  exact drains_iff hs.1 hs.2

end ClientQueues
