/-
What a command can do to the queues of clients.

Each function of `ClientQueues` that works on one client is a `Touch`: it leaves the
other clients alone, keeps the flags of `clients_pending_write` and `clients_to_close`
right, and moves clients into and out of `clients_pending_read` as `FlagQueue.Move`
says.  `Server.Next` is the same for the server as a whole, with what else is needed of
a command: a client that was unlinked stays so, only such clients are lost from
`clients_pending_read`, and if no pending reply was forgotten, none is
(`Server.Served`).  `act_sane` is the result: a command is a `Next`, or it ends in the
output of a client; it does not use what was freed, and an assertion fails only if a
client that is flagged for reading is not in the queue.
-/
import DecomposeRedis.ClientQueues
import DecomposeRedis.FlagQueue

namespace ClientQueues

open Networking Adlist FlagQueue Function

namespace Server

/-- The flag of a client for a queue. -/
def flag (s : Server) (k : Queue) (c : ℕ) : Bool :=
  match s.slot c with
  | .live conn => conn.queued k
  | _ => false

/-- A queue with the flags of the clients. -/
def view (s : Server) (k : Queue) : View ℕ := ⟨s.queue k, s.flag k⟩

/-- The flags of a queue are right. -/
def Agree (s : Server) (k : Queue) : Prop := FlagQueue.Agree (s.queue k) (s.flag k)

/-- The client has lost its socket, or it was freed. -/
def Gone (s : Server) (c : ℕ) : Prop :=
  match s.slot c with
  | .unused => False
  | .live conn => conn.flags.fd = -1
  | .freed => True

end Server

/-- The replies of a client are not forgotten: if it is connected, not protected and no
replica, it is queued for writing, or its socket is watched, or it is to be freed. -/
def Conn.Served (conn : Conn) : Prop :=
  conn.flags.fd ≠ -1 → conn.isProtected = false → conn.replstate = none →
    clientHasPendingReplies conn.out = true →
    conn.queued .write = true ∨ conn.events.writable = true ∨ conn.queued .close = true

/-- No pending reply is forgotten. -/
def Server.Served (s : Server) : Prop := ∀ c conn, s.slot c = .live conn → conn.Served

variable {q : NodeList ℕ}

section Slots

variable {s : Server} {c : ℕ} {conn conn' : Conn} {k k' : Queue}

theorem get_live (h : s.slot c = .live conn) : s.get c = .ok conn := by
  rw [Server.get, h]

@[simp] theorem slot_set_self : (s.set c conn).slot c = .live conn := update_self ..

theorem slot_set_of_ne {d : ℕ} (h : d ≠ c) : (s.set c conn).slot d = s.slot d := update_of_ne h ..

@[simp] theorem queue_set : (s.set c conn).queue = s.queue := rfl

@[simp] theorem slot_setQueue : (s.setQueue k q).slot = s.slot := rfl

@[simp] theorem queue_setQueue_self : (s.setQueue k q).queue k = q := update_self ..

theorem queue_setQueue_of_ne (h : k' ≠ k) :
    (s.setQueue k q).queue k' = s.queue k' := update_of_ne h ..

@[simp] theorem queued_mark_self {b : Bool} : (conn.mark k b).queued k = b := update_self ..

theorem queued_mark_of_ne {b : Bool} (h : k' ≠ k) :
    (conn.mark k b).queued k' = conn.queued k' := update_of_ne h ..

theorem flag_live (h : s.slot c = .live conn) : s.flag k c = conn.queued k := by
  rw [Server.flag, h]

theorem live_of_flag (h : s.flag k c = true) :
    ∃ conn, s.slot c = .live conn ∧ conn.queued k = true := by
  rw [Server.flag] at h
  split at h
  · exact ⟨_, ‹_›, h⟩
  · cases h

theorem flag_set : (s.set c conn).flag k = update (s.flag k) c (conn.queued k) := by
  funext d
  rcases eq_or_ne d c with rfl | hne
  · rw [update_self, flag_live slot_set_self]
  · rw [update_of_ne hne, Server.flag, slot_set_of_ne hne, Server.flag]

theorem flag_setQueue : (s.setQueue k q).flag k' = s.flag k' := rfl

theorem flag_set_of_eq (h : s.slot c = .live conn) (hq : conn'.queued k = conn.queued k) :
    (s.set c conn').flag k = s.flag k := by
  rw [flag_set, hq, ← flag_live h, update_eq_self]

theorem gone_live (h : s.slot c = .live conn) : s.Gone c ↔ conn.flags.fd = -1 := by
  rw [Server.Gone, h]

theorem Server.Agree.live {node : ℕ} (h : s.Agree k) (hmem : (node, c) ∈ (s.queue k).nodes) :
    ∃ conn, s.slot c = .live conn ∧ conn.queued k = true :=
  live_of_flag (h.mem_iff.mp (NodeList.mem_values.mpr ⟨node, hmem⟩))

end Slots

/-! ### Functions on one client -/

/-- Something is done for the client `c`.  If `p`, it can be queued for reading. -/
structure Touch (p : Prop) (c : ℕ) (s s' : Server) : Prop where
  frame : ∀ d, d ≠ c → s'.slot d = s.slot d
  read : Moves p (s.view .read) (s'.view .read)
  agree : ∀ k, k ≠ .read → s.Agree k → s'.Agree k
  kept : ∀ x ∈ (s.queue .read).nodes, x ∈ (s'.queue .read).nodes ∨ x.2 = c
  settings : s'.toSettings = s.toSettings

section Touch

variable {p : Prop} {s s' s'' : Server} {c : ℕ} {conn conn' : Conn} {k : Queue}

theorem Touch.refl : Touch p c s s :=
  ⟨fun _ _ => rfl, .refl, fun _ _ h => h, fun _ hx => .inl hx, rfl⟩

theorem Touch.trans (h : Touch p c s s') (h' : Touch p c s' s'') : Touch p c s s'' where
  frame := fun d hd => (h'.frame d hd).trans (h.frame d hd)
  read := h.read.trans h'.read
  agree := fun k hk hs => h'.agree k hk (h.agree k hk hs)
  kept := by
    intro x hx
    rcases h.kept x hx with hx | hx
    · exact h'.kept x hx
    · exact .inr hx
  settings := h'.settings.trans h.settings

/-- The queues and their flags stay as they are. -/
theorem Touch.of_flag (hframe : ∀ d, d ≠ c → s'.slot d = s.slot d) (hqueue : s'.queue = s.queue)
    (hflag : ∀ k, s'.flag k = s.flag k) (hsettings : s'.toSettings = s.toSettings) :
    Touch p c s s' where
  frame := hframe
  read := by
    have hview : s'.view .read = s.view .read := by rw [Server.view, hqueue, hflag, Server.view]
    rw [hview]
    exact .refl
  agree := by
    intro k _ h
    rw [Server.Agree, hqueue, hflag]
    exact h
  kept := fun x hx => .inl (hqueue ▸ hx)
  settings := hsettings

theorem Touch.set (hc : s.slot c = .live conn) (hq : conn'.queued = conn.queued) :
    Touch p c s (s.set c conn') :=
  .of_flag (fun _ hd => slot_set_of_ne hd) rfl
    (fun k => flag_set_of_eq hc (congrFun hq k)) rfl

/-- A queue is written together with the flag. -/
theorem Touch.mark {b : Bool} (hc : s.slot c = .live conn)
    (hk : k ≠ .read → s.Agree k → FlagQueue.Agree q (update (s.flag k) c b))
    (hread : k = .read → Moves p (s.view .read) ⟨q, update (s.flag .read) c b⟩)
    (hkept : k = .read → ∀ x ∈ (s.queue .read).nodes, x ∈ q.nodes ∨ x.2 = c) :
    Touch p c s ((s.set c (conn.mark k b)).setQueue k q) := by
  have hflag : ((s.set c (conn.mark k b)).setQueue k q).flag k = update (s.flag k) c b := by
    rw [flag_setQueue, flag_set, queued_mark_self]
  have hflag' : ∀ k', k' ≠ k → ((s.set c (conn.mark k b)).setQueue k q).flag k' = s.flag k' :=
    fun k' hne => flag_set_of_eq hc (queued_mark_of_ne hne)
  refine ⟨fun d hd => slot_set_of_ne hd, ?_, fun k' hk' h => ?_, fun x hx => ?_, rfl⟩
  · rcases eq_or_ne Queue.read k with rfl | hne
    · rw [Server.view, Server.view, hflag, queue_setQueue_self]
      exact hread rfl
    · rw [Server.view, Server.view, hflag' _ hne, queue_setQueue_of_ne hne]
      exact .refl
  · rcases eq_or_ne k' k with rfl | hne
    · rw [Server.Agree, hflag, queue_setQueue_self]
      exact hk hk' h
    · rw [Server.Agree, hflag' _ hne, queue_setQueue_of_ne hne]
      exact h
  · rcases eq_or_ne Queue.read k with rfl | hne
    · rw [queue_setQueue_self]
      exact hkept rfl x hx
    · rw [queue_setQueue_of_ne hne]
      exact .inl hx

/-- A client that is in no queue is freed. -/
theorem Touch.free (hc : s.slot c = .live conn) (hq : ∀ k, conn.queued k = false) :
    Touch p c s { s with slot := update s.slot c .freed } := by
  refine .of_flag (fun d hd => update_of_ne hd ..) rfl (fun k => ?_) rfl
  funext d
  rcases eq_or_ne d c with rfl | hne
  · rw [flag_live hc, hq k, Server.flag]
    simp
  · simp only [Server.flag, update_of_ne hne]

end Touch

/-- What holds between a state and a later one, apart from the flags of
`clients_pending_read`. -/
structure Server.Later (s s' : Server) : Prop where
  agree : ∀ k, k ≠ .read → s.Agree k → s'.Agree k
  gone : ∀ c, s.Gone c → s'.Gone c
  kept : ∀ x ∈ (s.queue .read).nodes, x ∈ (s'.queue .read).nodes ∨ s'.Gone x.2
  served : s.Served → s'.Served

/-- What a command does to the server. -/
structure Server.Next (p : Prop) (s s' : Server) : Prop extends s.Later s' where
  read : Moves p (s.view .read) (s'.view .read)

/-- What the commands need of the queues.  The flags of `clients_pending_read` are not
right while that queue is served. -/
def Server.Ready (s : Server) : Prop := ∀ k, k ≠ .read → s.Agree k

/-- A client that is flagged for reading is found in its queue. -/
def Server.Found (s : Server) : Prop := Linked (s.queue .read) (s.flag .read)

section Next

variable {p : Prop} {s s' s'' : Server} {c : ℕ} {conn conn' : Conn}

theorem Server.Later.refl : s.Later s := ⟨fun _ _ h => h, fun _ h => h, fun _ hx => .inl hx, id⟩

theorem Server.Later.trans (h : s.Later s') (h' : s'.Later s'') : s.Later s'' where
  agree := fun k hk hs => h'.agree k hk (h.agree k hk hs)
  gone := fun c hc => h'.gone c (h.gone c hc)
  kept := by
    intro x hx
    rcases h.kept x hx with hx | hx
    · exact h'.kept x hx
    · exact .inr (h'.gone _ hx)
  served := fun hs => h'.served (h.served hs)

theorem Server.Later.ready (h : s.Later s') (hs : s.Ready) : s'.Ready :=
  fun k hk => h.agree k hk (hs k hk)

theorem Server.Next.refl : s.Next p s := ⟨.refl, .refl⟩

theorem Server.Next.trans (h : s.Next p s') (h' : s'.Next p s'') : s.Next p s'' :=
  ⟨h.toLater.trans h'.toLater, h.read.trans h'.read⟩

theorem Server.Next.found (h : s.Next p s') (hs : s.Found) : s'.Found := h.read.linked hs

theorem Touch.ready (h : Touch p c s s') (hs : s.Ready) : s'.Ready :=
  fun k hk => h.agree k hk (hs k hk)

/-- Only the client has to be looked at. -/
theorem Touch.toNext (h : Touch p c s s') (hgone : s.Gone c → s'.Gone c)
    (hserved : s.Served → ∀ conn', s'.slot c = .live conn' → conn'.Served)
    (hkept : (∀ x ∈ (s.queue .read).nodes, x ∈ (s'.queue .read).nodes) ∨ s'.Gone c) :
    s.Next p s' where
  read := h.read
  agree := h.agree
  gone := by
    intro d hd
    rcases eq_or_ne d c with rfl | hne
    · exact hgone hd
    · rwa [Server.Gone, h.frame d hne]
  kept := by
    intro x hx
    rcases hkept with hkept | hgone
    · exact .inl (hkept x hx)
    · rcases h.kept x hx with hx | rfl
      · exact .inl hx
      · exact .inr hgone
  served := by
    intro hs d conn' hd
    rcases eq_or_ne d c with rfl | hne
    · exact hserved hs conn' hd
    · exact hs d conn' ((h.frame d hne).symm.trans hd)

/-- A client is changed and keeps its place in `clients_pending_read`. -/
theorem Touch.next (h : Touch p c s s') (hc : s.slot c = .live conn) (hc' : s'.slot c = .live conn')
    (hgone : conn.flags.fd = -1 → conn'.flags.fd = -1) (hserved : conn.Served → conn'.Served)
    (hkept : (∀ x ∈ (s.queue .read).nodes, x ∈ (s'.queue .read).nodes) ∨ conn'.flags.fd = -1) :
    s.Next p s' := by
  refine h.toNext (fun hd => (gone_live hc').mpr (hgone ((gone_live hc).mp hd)))
    (fun hs conn₁ hd => ?_)
    (hkept.imp_right (gone_live hc').mpr)
  obtain rfl : conn' = conn₁ := Slot.live.inj (hc'.symm.trans hd)
  exact hserved (hs c conn hc)

/-- A client is freed. -/
theorem Touch.next_freed (h : Touch p c s s') (hc' : s'.slot c = .freed) : s.Next p s' := by
  have hgone : s'.Gone c := by
    rw [Server.Gone, hc']
    trivial
  exact h.toNext (fun _ => hgone) (fun _ _ hd => nomatch hc'.symm.trans hd) (.inr hgone)

/-- The client is written, and its flags stay as they are. -/
theorem next_set (hc : s.slot c = .live conn) (hq : conn'.queued = conn.queued)
    (hgone : conn.flags.fd = -1 → conn'.flags.fd = -1) (hserved : conn.Served → conn'.Served) :
    s.Next p (s.set c conn') :=
  (Touch.set hc hq).next hc slot_set_self hgone hserved (.inl fun _ hx => hx)

end Next

/-- A call is a `Next`, or it ends in the output of a client.  An assertion fails only
for a client that is flagged for reading and not in the queue. -/
def Sane (p : Prop) (s : Server) : Except Stop Server → Prop
  | .ok s' => s.Next p s'
  | .error e => (∃ fault, e = .output fault) ∨ e = .assertion ∧ ¬ s.Found

section Sane

variable {p : Prop} {s : Server} {x : Except Stop Server}

theorem Sane.bind {g : Server → Except Stop Server} (hs : s.Ready) (h : Sane p s x)
    (hg : ∀ s', x = .ok s' → s'.Ready → Sane p s' (g s')) : Sane p s (x.bind g) := by
  cases x with
  | error e => exact h
  | ok s₁ =>
    have hnext : s.Next p s₁ := h
    have hg := hg s₁ rfl (hnext.ready hs)
    show Sane p s (g s₁)
    cases hgs : g s₁ with
    | error e =>
      rw [hgs] at hg
      exact hg.imp_right fun he => ⟨he.1, fun hfound => he.2 (hnext.found hfound)⟩
    | ok s₂ =>
      rw [hgs] at hg
      exact hnext.trans hg

theorem Sane.foldlM {ι : Type} {f : Server → ι → Except Stop Server} (hs : s.Ready) {l : List ι}
    (hf : ∀ s i, i ∈ l → s.Ready → Sane p s (f s i)) : Sane p s (l.foldlM f s) := by
  induction l generalizing s with
  | nil => exact Server.Next.refl
  | cons i l ih =>
    exact Sane.bind hs (hf s i List.mem_cons_self hs) fun s' _ hs' =>
      ih hs' fun s j hj hs => hf s j (List.mem_cons_of_mem _ hj) hs

theorem Sane.of_next (h : ∃ s', x = .ok s' ∧ s.Next p s') : Sane p s x := by
  obtain ⟨s', rfl, hnext⟩ := h
  exact hnext

end Sane

/-! ### The functions -/

/-- A client after `freeClientAsync`. -/
def Conn.closing (conn : Conn) : Conn :=
  if conn.queued .close || conn.flags.lua then conn else conn.mark .close true

/-- The client becomes `conn'`.  Of the queues only `k` can change. -/
structure Becomes (k : Queue) (c : ℕ) (conn' : Conn) (s s' : Server) : Prop where
  touch : ∀ p, Touch p c s s'
  live : s'.slot c = .live conn'
  queue : ∀ k', k' ≠ k → s'.queue k' = s.queue k'

section Functions

variable {p : Prop} {s s' s'' : Server} {c : ℕ} {conn conn' conn'' : Conn} {k : Queue}

theorem Becomes.refl (hc : s.slot c = .live conn) : Becomes k c conn s s :=
  ⟨fun _ => .refl, hc, fun _ _ => rfl⟩

theorem Becomes.trans (h : Becomes k c conn' s s') (h' : Becomes k c conn'' s' s'') :
    Becomes k c conn'' s s'' :=
  ⟨fun p => (h.touch p).trans (h'.touch p), h'.live,
    fun k' hk => (h'.queue k' hk).trans (h.queue k' hk)⟩

theorem Becomes.set (hc : s.slot c = .live conn) (hq : conn'.queued = conn.queued) :
    Becomes k c conn' s (s.set c conn') :=
  ⟨fun _ => .set hc hq, slot_set_self, fun _ _ => rfl⟩

theorem Becomes.next (h : Becomes k c conn' s s') (hc : s.slot c = .live conn) (hk : k ≠ .read)
    (hfd : conn'.flags.fd = conn.flags.fd) (hserved : conn.Served → conn'.Served) : s.Next p s' :=
  (h.touch p).next hc h.live (fun hgone => hfd.trans hgone) hserved
    (.inl fun _ hx => (h.queue .read hk.symm).symm ▸ hx)

@[simp] theorem flags_closing : conn.closing.flags = conn.flags := by
  rw [Conn.closing]
  split <;> rfl

/-- A client with a socket is in `clients_to_close` then. -/
theorem closing_served : conn.closing.Served := by
  intro hfd _ _ _
  rw [flags_closing] at hfd
  refine .inr (.inr ?_)
  rw [Conn.closing]
  split
  · rename_i h
    rcases Bool.or_eq_true_iff.mp h with h | h
    · exact h
    · exact absurd (conn.noSocket (.inl h)) hfd
  · exact queued_mark_self

theorem freeClientAsync_spec (hc : s.slot c = .live conn) :
    ∃ s', freeClientAsync s c = .ok s' ∧ Becomes .close c conn.closing s s' := by
  rw [freeClientAsync, get_live hc, Except.bind, Conn.closing]
  split
  · exact ⟨s, rfl, .refl hc⟩
  · rename_i h
    have hclose : s.flag .close c = false := by
      rw [flag_live hc]
      exact (Bool.or_eq_false_iff.mp (eq_false_of_ne_true h)).1
    refine ⟨_, rfl, fun p => .mark hc (fun _ h => h.push hclose fun y => count_listAddNodeTail c y)
      nofun nofun, slot_set_self, fun k hk => queue_setQueue_of_ne hk⟩

/-- A client after `clientInstallWriteHandler`. -/
def Conn.scheduled (conn : Conn) : Conn :=
  if !conn.queued .write && (conn.replstate = none
      || (conn.replstate = some .online && !conn.replPutOnlineOnAck)) then conn.mark .write true
  else conn

theorem flags_scheduled : conn.scheduled.flags = conn.flags := by
  rw [Conn.scheduled]
  split <;> rfl

theorem replstate_scheduled : conn.scheduled.replstate = conn.replstate := by
  rw [Conn.scheduled]
  split <;> rfl

/-- A client that is no replica is in `clients_pending_write` then. -/
theorem queued_scheduled (h : conn.replstate = none) : conn.scheduled.queued .write = true := by
  rw [Conn.scheduled, h]
  cases hw : conn.queued .write with
  | false => exact queued_mark_self
  | true => exact hw

theorem clientInstallWriteHandler_spec (hc : s.slot c = .live conn) :
    ∃ s', clientInstallWriteHandler s c = .ok s' ∧ Becomes .write c conn.scheduled s s' := by
  rw [clientInstallWriteHandler, get_live hc, Except.bind, Conn.scheduled]
  split
  · rename_i h
    have hwrite : s.flag .write c = false := by
      rw [flag_live hc]
      simpa using (Bool.and_eq_true_iff.mp h).1
    exact ⟨_, rfl, fun p => .mark hc (fun _ h => h.push hwrite fun y => count_listAddNodeHead c y)
      nofun nofun, slot_set_self, fun k hk => queue_setQueue_of_ne hk⟩
  · exact ⟨s, rfl, .refl hc⟩

/-- Whether `postponeClientRead` puts the client into the queue. -/
def Postpones (s : Server) (c : ℕ) : Prop :=
  ∃ conn, s.slot c = .live conn ∧ s.ioThreadsActive = true ∧ s.ioThreadsDoReads = true
    ∧ conn.flags.master = false ∧ conn.flags.slave = false ∧ conn.queued .read = false

theorem postponeClientRead_next (hc : s.slot c = .live conn) (hp : Postpones s c → p) :
    ∃ x, postponeClientRead s c = .ok x ∧ s.Next p x.1 := by
  rw [postponeClientRead, get_live hc, Except.bind]
  split
  · rename_i h
    simp only [Bool.and_eq_true, Bool.not_eq_true', Bool.or_eq_false_iff] at h
    obtain ⟨⟨hactive, hreads⟩, ⟨hmaster, hslave⟩, hread⟩ := h
    have hflag : (s.view .read).flag c = false := (flag_live hc).trans hread
    have hmove : Moves p (s.view .read) ⟨listAddNodeHead (s.queue .read) c,
        update (s.flag .read) c true⟩ :=
      Relation.ReflTransGen.single (.push (hp ⟨conn, hc, hactive, hreads, hmaster,
        hslave, hread⟩) hflag)
    have hkept : ∀ x ∈ (s.queue .read).nodes, x ∈ (listAddNodeHead (s.queue .read) c).nodes :=
      fun x hx => List.mem_cons_of_mem _ hx
    have htouch : Touch p c s
        ((s.set c (conn.mark .read true)).setQueue .read (listAddNodeHead (s.queue .read) c)) :=
      .mark hc (fun h => absurd rfl h) (fun _ => hmove) fun _ x hx => .inl (hkept x hx)
    refine ⟨_, rfl, htouch.next hc slot_set_self id id (.inl fun x hx => ?_)⟩
    exact hkept x hx
  · exact ⟨_, rfl, .refl⟩

/-- A flagged client is found in its queue, or else the assertion fails. -/
theorem unqueue_cases (hc : s.slot c = .live conn) :
    (∃ s', unqueue k s c = .ok s' ∧ Becomes k c (conn.mark k false) s s')
    ∨ unqueue k s c = .error .assertion ∧ ¬ Linked (s.queue k) (s.flag k) := by
  rw [unqueue, get_live hc, Except.bind]
  split
  · rename_i hq
    have hflag : s.flag k c = true := (flag_live hc).trans hq
    rcases hsearch : listSearchKey (s.queue k) c with _ | node
    · refine .inr ⟨rfl, fun hlinked => ?_⟩
      obtain ⟨node, hnode⟩ := exists_listSearchKey (hlinked c hflag)
      exact nomatch hsearch.symm.trans hnode
    · have hmem := mem_of_listSearchKey hsearch
      dsimp only
      rw [listDelNode_of_mem hmem]
      refine .inl ⟨_, rfl, fun p => .mark hc (fun _ h => h.drop hmem) ?_ ?_, slot_set_self,
        fun k' hk' => queue_setQueue_of_ne hk'⟩
      · rintro rfl
        exact Relation.ReflTransGen.single (.drop hmem hflag)
      · rintro rfl x hx
        rcases eq_or_ne x.1 node with rfl | hne
        · exact .inr (NodeList.value_unique hx hmem)
        · exact .inl (List.mem_filter.mpr ⟨hx, decide_eq_true hne⟩)
  · rename_i hq
    have hsame : update conn.queued k false = conn.queued := by
      rw [← eq_false_of_ne_true hq, update_eq_self]
    refine .inl ⟨s, rfl, fun _ => .refl, ?_, fun _ _ => rfl⟩
    rw [hc, Conn.mark, hsame]

theorem unqueue_spec (hlinked : Linked (s.queue k) (s.flag k)) (hc : s.slot c = .live conn) :
    ∃ s', unqueue k s c = .ok s' ∧ Becomes k c (conn.mark k false) s s' :=
  (unqueue_cases hc).resolve_right fun h => h.2 hlinked

/-- A client after `unlinkClient`. -/
def Conn.unlinked (conn : Conn) : Conn :=
  ((if conn.flags.fd ≠ -1 then conn.closed else conn).mark .write false).mark .read false

theorem fd_unlinked : conn.unlinked.flags.fd = -1 := by
  show (if conn.flags.fd ≠ -1 then conn.closed else conn).flags.fd = -1
  split
  · rfl
  · rename_i h
    exact not_not.mp h

theorem queued_unlinked_close : conn.unlinked.queued .close = conn.queued .close := by
  rw [Conn.unlinked, queued_mark_of_ne (by decide), queued_mark_of_ne (by decide)]
  split <;> rfl

theorem queued_unlinked (h : k ≠ .close) : conn.unlinked.queued k = false := by
  cases k with
  | read => exact queued_mark_self
  | write => exact (queued_mark_of_ne (by decide)).trans queued_mark_self
  | close => exact absurd rfl h

/-- `unlinkClient` closes the socket and takes the client out of two queues. -/
theorem unlinkClient_cases (hwrite : Linked (s.queue .write) (s.flag .write))
    (hc : s.slot c = .live conn) :
    (∃ s', unlinkClient s c = .ok s' ∧ (∀ p, Touch p c s s') ∧ s'.slot c = .live conn.unlinked
      ∧ s'.queue .close = s.queue .close)
    ∨ unlinkClient s c = .error .assertion ∧ ¬ s.Found := by
  have hsocket : ∀ conn₁ : Conn, conn₁.queued = conn.queued →
      (∃ s', ((unqueue .write (s.set c conn₁) c).bind fun s => unqueue .read s c) = .ok s'
        ∧ (∀ p, Touch p c s s') ∧ s'.slot c = .live ((conn₁.mark .write false).mark .read false)
        ∧ s'.queue .close = s.queue .close)
      ∨ ((unqueue .write (s.set c conn₁) c).bind fun s => unqueue .read s c) = .error .assertion
        ∧ ¬ s.Found := by
    intro conn₁ hq
    have hset : ∀ p, Touch p c s (s.set c conn₁) := fun p => .set hc hq
    have hwrite₁ : Linked ((s.set c conn₁).queue .write) ((s.set c conn₁).flag .write) := by
      rw [flag_set_of_eq hc (congrFun hq _)]
      exact hwrite
    obtain ⟨s₁, hrun₁, htouch₁, hlive₁, hqueue₁⟩ := unqueue_spec hwrite₁ slot_set_self
    rw [hrun₁, Except.bind]
    rcases unqueue_cases (k := .read) hlive₁ with ⟨s₂, hrun₂, htouch₂, hlive₂, hqueue₂⟩ |
      ⟨herr, hlost⟩
    · exact .inl ⟨s₂, hrun₂, fun p => (hset p).trans ((htouch₁ p).trans (htouch₂ p)), hlive₂,
        (hqueue₂ .close (by decide)).trans (hqueue₁ .close (by decide))⟩
    · exact .inr ⟨herr, fun hfound => hlost
        (((hset False).trans (htouch₁ False)).read.linked hfound)⟩
  have hself : s.set c conn = s := by
    rw [Server.set, ← hc, update_eq_self]
  rw [unlinkClient, get_live hc, Except.bind, Conn.unlinked]
  split
  · exact hsocket conn.closed rfl
  · have := hsocket conn rfl
    rwa [hself] at this

theorem fd_cached (s : Server) : (s.cacheMaster.apply conn.unlinked).flags.fd = -1 := by
  rw [s.cacheMaster.flags_eq]
  exact fd_unlinked

/-- The client of the master is unlinked and kept. -/
theorem replicationCacheMaster_cases (hwrite : Linked (s.queue .write) (s.flag .write))
    (hc : s.slot c = .live conn) :
    (∃ s', replicationCacheMaster s c = .ok s' ∧ (∀ p, Touch p c s s')
      ∧ s'.slot c = .live (s.cacheMaster.apply conn.unlinked) ∧ s'.queue .close = s.queue .close)
    ∨ replicationCacheMaster s c = .error .assertion ∧ ¬ s.Found := by
  rw [replicationCacheMaster]
  rcases unlinkClient_cases hwrite hc with ⟨s', hrun, htouch, hlive, hqueue⟩ | ⟨herr, hlost⟩
  · have hsame : s'.cacheMaster = s.cacheMaster := by rw [(htouch False).settings]
    rw [hrun, Except.bind, get_live hlive, hsame]
    refine .inl ⟨_, rfl, fun p => (htouch p).trans (.set hlive ?_), slot_set_self, hqueue⟩
    exact s.cacheMaster.queued_eq _
  · rw [herr]
    exact .inr ⟨rfl, hlost⟩

/-- A client is left without a socket, unless it is not found in its queue. -/
theorem sane_of_cases {x : Except Stop Server} (hc : s.slot c = .live conn)
    (hfd : conn'.flags.fd = -1)
    (h : (∃ s', x = .ok s' ∧ (∀ p, Touch p c s s') ∧ s'.slot c = .live conn'
      ∧ s'.queue .close = s.queue .close) ∨ x = .error .assertion ∧ ¬ s.Found) : Sane p s x := by
  rcases h with ⟨s', rfl, htouch, hlive, -⟩ | ⟨rfl, hlost⟩
  · exact (htouch p).next hc hlive (fun _ => hfd) (fun _ h => absurd hfd h) (.inr hfd)
  · exact .inr ⟨rfl, hlost⟩

theorem unlinkClient_sane (hs : s.Ready) (hc : s.slot c = .live conn) :
    Sane p s (unlinkClient s c) :=
  sane_of_cases hc fd_unlinked (unlinkClient_cases (hs .write (by decide)).linked hc)

theorem freeClientAsync_next (hc : s.slot c = .live conn) :
    ∃ s', freeClientAsync s c = .ok s' ∧ s.Next p s' := by
  obtain ⟨s', hrun, hbecomes⟩ := freeClientAsync_spec hc
  exact ⟨s', hrun, hbecomes.next hc (by decide) (congrArg _ flags_closing) fun _ => closing_served⟩

theorem freeClient_sane (hs : s.Ready) (hc : s.slot c = .live conn) :
    Sane p s (freeClient s c) := by
  rw [freeClient, get_live hc, Except.bind]
  split_ifs
  · exact .of_next (freeClientAsync_next hc)
  · exact sane_of_cases hc (fd_cached s)
      (replicationCacheMaster_cases (hs .write (by decide)).linked hc)
  · rcases unlinkClient_cases (hs .write (by decide)).linked hc with
      ⟨s₁, hrun₁, htouch₁, hlive₁, -⟩ | ⟨herr, hlost⟩
    · obtain ⟨s₂, hrun₂, htouch₂, hlive₂, -⟩ :=
        unqueue_spec ((htouch₁ False).ready hs .close (by decide)).linked hlive₁
      have hfree : Touch p c s₂ { s₂ with slot := update s₂.slot c .freed } := by
        refine .free hlive₂ fun k => ?_
        rcases eq_or_ne k .close with rfl | hne
        · exact queued_mark_self
        · exact (queued_mark_of_ne hne).trans (queued_unlinked hne)
      rw [hrun₁, Except.bind, hrun₂]
      exact (((htouch₁ p).trans (htouch₂ p)).trans hfree).next_freed (update_self ..)
    · rw [herr]
      exact .inr ⟨rfl, hlost⟩

/-! ### Replies -/

/-- With `prepareClientToWrite` the replies that follow are not forgotten. -/
theorem prepareClientToWrite_spec (hc : s.slot c = .live conn) :
    ∃ s' conn₁ ok, prepareClientToWrite s c = .ok (s', ok) ∧ Becomes .write c conn₁ s s'
      ∧ conn₁.flags = conn.flags ∧ conn₁.out = conn.out
      ∧ (ok = false → Networking.prepareClientToWrite conn.flags = false)
      ∧ (conn.Served → ∀ out', (ok = true ∨ out' = conn.out) →
        ({ conn₁ with out := out' } : Conn).Served) := by
  rw [prepareClientToWrite, get_live hc, Except.bind]
  split_ifs with hfake hprepare hpending
  · refine ⟨s, conn, true, rfl, .refl hc, rfl, rfl, nofun, fun _ _ _ hfd => absurd ?_ hfd⟩
    exact conn.noSocket (Bool.or_eq_true_iff.mp hfake)
  · refine ⟨s, conn, false, rfl, .refl hc, rfl, rfl, fun _ => by simpa using hprepare, ?_⟩
    rintro hserved out' (h | rfl)
    · cases h
    · exact hserved
  · obtain ⟨s', hrun, hbecomes⟩ := clientInstallWriteHandler_spec hc
    have hout : conn.scheduled.out = conn.out := by
      rw [Conn.scheduled]
      split <;> rfl
    refine ⟨s', conn.scheduled, true, by rw [hrun, Except.map], hbecomes, flags_scheduled,
      hout, nofun, ?_⟩
    intro _ out' _ _ _ hrepl _
    exact .inl (queued_scheduled (replstate_scheduled.symm.trans hrepl))
  · refine ⟨s, conn, true, rfl, .refl hc, rfl, rfl, nofun, ?_⟩
    intro hserved out' _ hfd hprot hrepl _
    exact hserved hfd hprot hrepl (by simpa using hpending)

end Functions

section Outputs

variable {N : ℕ} {f : ReplyFlags} {out : Output}

theorem not_pending_iff : clientHasPendingReplies out = false ↔ out.buf = [] ∧ out.reply = [] := by
  simp [clientHasPendingReplies]

/-- Where only empty blocks are left, nothing is written. -/
theorem writeToClient_nothing {out' : Output} (ws : List WriteResult)
    (hnext : nextChunk out = .ok out') (hpending : clientHasPendingReplies out' = false) :
    Networking.writeToClient N f ws out = .ok ({ out' with sentlen := 0 }, [],
      f.closeAfterReply) := by
  have hloop : writeLoop N f ws 0 out = .ok (out', [], false) := by
    rw [writeLoop.eq_def]
    dsimp only
    rw [hnext]
    exact if_pos (by rw [hpending]; rfl)
  rw [Networking.writeToClient, hloop]
  show Except.ok (if clientHasPendingReplies out' then _ else _) = _
  rw [if_neg (by rw [hpending]; decide)]

theorem nextChunk_of_not_pending (h : clientHasPendingReplies out = false) :
    nextChunk out = .ok out := by
  obtain ⟨hbuf, hreply⟩ := not_pending_iff.mp h
  rw [nextChunk, if_neg (by simpa using hbuf), hreply, skipEmpty, Except.map, ← hreply]

/-- A write does not add replies. -/
theorem pending_of_writeToClient {ws : List WriteResult} {x : Output × Sds.Bytes × Bool}
    (h : Networking.writeToClient N f ws out = .ok x) (hx : clientHasPendingReplies x.1 = true) :
    clientHasPendingReplies out = true := by
  by_contra hpending
  have hpending := eq_false_of_ne_true hpending
  rw [writeToClient_nothing ws (nextChunk_of_not_pending hpending) hpending] at h
  obtain rfl := Except.ok.inj h
  exact Bool.false_ne_true (hpending.symm.trans hx)

/-- A placeholder is a pending reply. -/
theorem pending_of_setDeferredAggregateLen {node : Option ℕ} {length : ℤ} {tag : UInt8} {slack : ℕ}
    {out' : Output} (h : setDeferredAggregateLen out node length tag slack = .ok out')
    (hpending : clientHasPendingReplies out' = true) : clientHasPendingReplies out = true := by
  cases node with
  | none => exact Except.ok.inj h ▸ hpending
  | some node =>
    by_contra hnone
    obtain ⟨-, hreply⟩ := not_pending_iff.mp (eq_false_of_ne_true hnone)
    rw [setDeferredAggregateLen, hreply] at h
    cases h

/-- A client that gets no replies keeps its output. -/
theorem replyCall_of_not_prepared {call : ReplyCall} {x : Output × Sds.Bytes × Option ℕ}
    (hf : Networking.prepareClientToWrite f = false) (h : replyCall N f out call = .ok x)
    (hws : ∀ ws, call ≠ .writeToClient ws)
    (hset : ∀ node length tag slack, call ≠ .setDeferredAggregateLen node length tag slack) :
    x.1 = out := by
  have hproto : ∀ s slack, addReplyProto f out s slack = out := by
    intro s slack
    rw [addReplyProto, hf]
    rfl
  cases call with
  | addReply obj slack =>
    cases obj with
    | sdsEncoded s => exact Except.ok.inj h ▸ hproto s slack
    | int value => exact Except.ok.inj h ▸ hproto _ slack
    | other =>
      rw [replyCall, addReply, hf] at h
      exact Except.ok.inj h ▸ rfl
  | addReplySds s slack => exact Except.ok.inj h ▸ hproto s slack
  | addReplyProto s slack => exact Except.ok.inj h ▸ hproto s slack
  | addReplyDeferredLen node =>
    rw [replyCall, addReplyDeferredLen, hf] at h
    exact Except.ok.inj h ▸ rfl
  | setDeferredAggregateLen node length tag slack => exact absurd rfl (hset node length tag slack)
  | writeToClient ws => exact absurd rfl (hws ws)

end Outputs

section Replies

variable {N : ℕ} {p : Prop} {s : Server} {c : ℕ} {conn : Conn}

/-- A client with another output; if nothing is left to send, its write handler is
removed. -/
def Conn.sent (conn : Conn) (out : Output) (handlerInstalled : Bool) : Conn :=
  { conn with
    out := out
    events := if handlerInstalled && !clientHasPendingReplies out then
      aeDeleteFileEvent conn.events ⟨false, true, false⟩ else conn.events }

/-- A client after `writeToClient`, and whether the call returns `C_OK`. -/
def Conn.written (N : ℕ) (ws : List WriteResult) (handlerInstalled : Bool) (conn : Conn) :
    Except Stop (Conn × Bool) :=
  ((Networking.writeToClient N conn.flags ws conn.out).mapError .output).map fun x =>
    if x.2.2 then ((conn.sent x.1 handlerInstalled).closing, false)
    else (conn.sent x.1 handlerInstalled, true)

/-- What is written to one client does not touch the others, and of the queues only
`clients_to_close`. -/
theorem writeToClient_spec (ws : List WriteResult) (handlerInstalled : Bool)
    (hc : s.slot c = .live conn) :
    match conn.written N ws handlerInstalled with
    | .error e => writeToClient N s c ws handlerInstalled = .error e
    | .ok x =>
      ∃ s', writeToClient N s c ws handlerInstalled = .ok (s', x.2) ∧
        Becomes .close c x.1 s s' := by
  rw [writeToClient, get_live hc, Except.bind, Conn.written]
  rcases Networking.writeToClient N conn.flags ws conn.out with fault | ⟨out, data, err⟩
  · rfl
  have hsent : Becomes .close c (conn.sent out handlerInstalled) s
      (s.set c (conn.sent out handlerInstalled)) := .set hc rfl
  cases err with
  | false => exact ⟨_, rfl, hsent⟩
  | true =>
    obtain ⟨s', hrun, hbecomes⟩ := freeClientAsync_spec hsent.live
    refine ⟨s', ?_, hsent.trans hbecomes⟩
    show (freeClientAsync (s.set c (conn.sent out handlerInstalled)) c).map _ = _
    rw [hrun]
    rfl

variable {handlerInstalled : Bool} {ws : List WriteResult} {x : Conn × Bool}

theorem written_ok (h : conn.written N ws handlerInstalled = .ok x) :
    ∃ y, Networking.writeToClient N conn.flags ws conn.out = .ok y ∧
      x = if y.2.2 then ((conn.sent y.1 handlerInstalled).closing, false)
        else (conn.sent y.1 handlerInstalled, true) := by
  obtain ⟨y, hy, rfl⟩ := Jobs.map_eq_ok h
  exact ⟨y, Jobs.mapError_eq_ok hy, rfl⟩

theorem written_error {e : Stop} (h : conn.written N ws handlerInstalled = .error e) :
    ∃ fault, e = .output fault := by
  rw [Conn.written] at h
  rcases hw : Networking.writeToClient N conn.flags ws conn.out with fault | x
  · rw [hw] at h
    exact ⟨fault, (Except.error.inj h).symm⟩
  · rw [hw] at h
    cases h

theorem flags_written (h : conn.written N ws handlerInstalled = .ok x) :
    x.1.flags = conn.flags := by
  obtain ⟨y, -, rfl⟩ := written_ok h
  split
  · exact flags_closing
  · rfl

/-- The write handler is removed only when nothing is left to send. -/
theorem sent_served {x : Output × Sds.Bytes × Bool}
    (h : Networking.writeToClient N conn.flags ws conn.out = .ok x) (hserved : conn.Served) :
    (conn.sent x.1 handlerInstalled).Served := by
  intro hfd hprot hrepl hpending
  have hpending : clientHasPendingReplies x.1 = true := hpending
  have hevents : (conn.sent x.1 handlerInstalled).events = conn.events := by
    exact if_neg (by rw [hpending]; simp)
  rw [hevents]
  exact hserved hfd hprot hrepl (pending_of_writeToClient h hpending)

theorem written_served (h : conn.written N ws handlerInstalled = .ok x)
    (hserved : conn.Served) : x.1.Served := by
  obtain ⟨y, hw, rfl⟩ := written_ok h
  split
  · exact closing_served
  · exact sent_served hw hserved

theorem writeToClient_sane (ws : List WriteResult) (handlerInstalled : Bool)
    (hc : s.slot c = .live conn) :
    Sane p s ((writeToClient N s c ws handlerInstalled).map Prod.fst) := by
  have hspec := writeToClient_spec (N := N) ws handlerInstalled hc
  rcases hw : conn.written N ws handlerInstalled with e | x
  · rw [hw] at hspec
    rw [hspec]
    exact .inl (written_error hw)
  · rw [hw] at hspec
    obtain ⟨s', hrun, hbecomes⟩ := hspec
    rw [hrun]
    exact hbecomes.next hc (by decide) (congrArg _ (flags_written hw)) (written_served hw)

theorem replaceOutput_sane {call : ReplyCall} (hc : s.slot c = .live conn)
    (hserved : conn.Served → ∀ x, replyCall N conn.flags conn.out call = .ok x →
      ({ conn with out := x.1 } : Conn).Served) :
    Sane p s (replaceOutput N s c call) := by
  rw [replaceOutput, get_live hc, Except.bind]
  rcases hcall : replyCall N conn.flags conn.out call with fault | x
  · exact .inl ⟨fault, rfl⟩
  · exact next_set hc rfl id fun hs => hserved hs x hcall

/-- After `prepareClientToWrite` a reply is added. -/
theorem prepare_replaceOutput_sane {call : ReplyCall} (hc : s.slot c = .live conn)
    (hws : ∀ ws, call ≠ .writeToClient ws)
    (hset : ∀ node length tag slack, call ≠ .setDeferredAggregateLen node length tag slack) :
    Sane p s ((prepareClientToWrite s c).bind fun x => replaceOutput N x.1 c call) := by
  obtain ⟨s₁, conn₁, ok, hrun, hbecomes, hflags, hout, hok, hserved⟩ := prepareClientToWrite_spec hc
  rw [hrun, Except.bind, replaceOutput, get_live hbecomes.live, Except.bind]
  rcases hcall : replyCall N conn₁.flags conn₁.out call with fault | x
  · exact .inl ⟨fault, rfl⟩
  · rw [hflags, hout] at hcall
    have hnext : Becomes .write c { conn₁ with out := x.1 } s₁
      (s₁.set c { conn₁ with out := x.1 }) :=
      .set hbecomes.live rfl
    refine (hbecomes.trans hnext).next hc (by decide) (congrArg _ hflags) fun hs =>
      hserved hs x.1 ?_
    cases hprep : ok with
    | true => exact .inl rfl
    | false => exact .inr (replyCall_of_not_prepared (hok hprep) hcall hws hset)

theorem reply_sane (call : ReplyCall) (hc : s.slot c = .live conn) :
    Sane p s (reply N s c call) := by
  cases call with
  | writeToClient ws => exact writeToClient_sane ws false hc
  | setDeferredAggregateLen node length tag slack =>
    refine replaceOutput_sane hc fun hserved x hx hfd hprot hrepl hpending => ?_
    refine hserved hfd hprot hrepl ?_
    obtain ⟨out', hset, rfl⟩ := Jobs.map_eq_ok hx
    exact pending_of_setDeferredAggregateLen hset hpending
  | addReply obj slack => exact prepare_replaceOutput_sane hc nofun nofun
  | addReplySds bytes slack => exact prepare_replaceOutput_sane hc nofun nofun
  | addReplyProto bytes slack => exact prepare_replaceOutput_sane hc nofun nofun
  | addReplyDeferredLen node => exact prepare_replaceOutput_sane hc nofun nofun

/-- The output of `src` is taken away, or nothing happens. -/
theorem addReplyFromClient_cases (f : ReplyFlags) (dst src : Output) (slack : ℕ) :
    clientHasPendingReplies (Networking.addReplyFromClient f dst src slack).2 = false
      ∨ Networking.prepareClientToWrite f = false
        ∧ Networking.addReplyFromClient f dst src slack = (dst, src) := by
  rw [Networking.addReplyFromClient]
  split
  · rename_i h
    exact .inr ⟨by simpa using h, rfl⟩
  · exact .inl rfl

theorem addReplyFromClient_sane {dst src : ℕ} {d r : Conn} (slack : ℕ) (hd : s.slot dst = .live d)
    (hr : s.slot src = .live r) : Sane p s (addReplyFromClient s dst src slack) := by
  obtain ⟨s₁, d₁, ok, hrun, hbecomes, hflags, hout, hok, hserved⟩ := prepareClientToWrite_spec hd
  obtain ⟨r₁, hr₁⟩ : ∃ r₁, s₁.slot src = .live r₁ := by
    rcases eq_or_ne src dst with rfl | hne
    · exact ⟨d₁, hbecomes.live⟩
    · exact ⟨r, ((hbecomes.touch False).frame src hne).trans hr⟩
  rw [addReplyFromClient, hrun, Except.bind, get_live hbecomes.live, Except.bind, get_live hr₁]
  show s.Next p _
  have hcases := addReplyFromClient_cases d₁.flags d₁.out r₁.out slack
  generalize hy : Networking.addReplyFromClient d₁.flags d₁.out r₁.out slack = y at hcases
  dsimp only [Except.map]
  rw [hy]
  have hdst : Becomes .write dst { d₁ with out := y.1 } s₁ (s₁.set dst { d₁ with out := y.1 }) :=
    .set hbecomes.live rfl
  have hnext : s.Next p (s₁.set dst { d₁ with out := y.1 }) := by
    refine (hbecomes.trans hdst).next hd (by decide) (congrArg _ hflags) fun hs => hserved hs y.1 ?_
    cases hprep : ok with
    | true => exact .inl rfl
    | false =>
      refine .inr ?_
      rw [← hy, Networking.addReplyFromClient, hflags, hok hprep]
      exact hout
  refine hnext.trans ?_
  rcases eq_or_ne src dst with rfl | hne
  · obtain rfl : d₁ = r₁ := Slot.live.inj (hbecomes.live.symm.trans hr₁)
    refine next_set slot_set_self rfl id ?_
    rcases hcases with hnone | ⟨-, rfl⟩
    · exact fun _ _ _ _ hpending => absurd (hnone.symm.trans hpending) Bool.false_ne_true
    · exact id
  · refine next_set ((slot_set_of_ne hne).trans hr₁) rfl id ?_
    rcases hcases with hnone | ⟨-, rfl⟩
    · exact fun _ _ _ _ hpending => absurd (hnone.symm.trans hpending) Bool.false_ne_true
    · exact id

theorem protectClient_next (hc : s.slot c = .live conn) :
    ∃ s', protectClient s c = .ok s' ∧ s.Next p s' := by
  rw [protectClient, get_live hc]
  exact ⟨_, rfl, next_set hc rfl id fun _ _ hprot => nomatch hprot⟩

/-- The client is queued for what was added while it was protected. -/
theorem unprotectClient_next (fails : Bool) (hc : s.slot c = .live conn) :
    ∃ s', unprotectClient s c fails = .ok s' ∧ s.Next p s' := by
  have hset : Becomes .write c { conn with
    isProtected := false
    events := if fails then conn.events else aeCreateFileEvent conn.events ⟨true, false, false⟩ } s
    (s.set c _) := .set hc rfl
  rw [unprotectClient, get_live hc, Except.bind]
  by_cases hprot : conn.isProtected = true
  · rw [if_pos hprot]
    by_cases hpending : clientHasPendingReplies conn.out = true
    · rw [if_pos hpending]
      obtain ⟨s', hrun, hbecomes⟩ := clientInstallWriteHandler_spec hset.live
      refine ⟨s', hrun, (hset.trans hbecomes).next hc (by decide) (congrArg _ flags_scheduled) ?_⟩
      intro _ _ _ hrepl _
      exact .inl (queued_scheduled (replstate_scheduled.symm.trans hrepl))
    · rw [if_neg hpending]
      exact ⟨_, rfl, hset.next hc (by decide) rfl fun _ _ _ _ h => absurd h hpending⟩
  · rw [if_neg hprot]
    exact ⟨s, rfl, .refl⟩

end Replies

/-! ### The loop over `clients_pending_write` -/

/-- A loop that leaves the nodes ahead of it alone goes through the queue as it was. -/
theorem forEach_eq_foldlM {σ : Type} {queue : σ → NodeList ℕ} {body : σ → ℕ → ℕ → Except Stop σ}
    (hbody : ∀ s node c front rest s', (queue s).nodes = front ++ (node, c) :: rest →
      body s node c = .ok s' → ∃ front', (queue s').nodes = front' ++ rest)
    {rest : List (ℕ × ℕ)} {fuel : ℕ} {s : σ} (hfuel : rest.length ≤ fuel)
    (hs : ∃ front, (queue s).nodes = front ++ rest) :
    forEach queue body fuel (rest.head?.map Prod.fst) s
      = rest.foldlM (fun s x => body s x.1 x.2) s := by
  induction rest generalizing fuel s with
  | nil =>
    cases fuel <;> rfl
  | cons x rest ih =>
    obtain ⟨front, hnodes⟩ := hs
    cases fuel with
    | zero => exact absurd hfuel (by simp)
    | succ fuel =>
      rw [List.head?_cons, Option.map_some, forEach, listNext_eq hnodes, List.foldlM_cons]
      rcases hx : body s x.1 x.2 with e | s'
      · dsimp only
        rw [hx]
        rfl
      · dsimp only
        rw [hx]
        exact ih (by simpa using hfuel) (hbody s x.1 x.2 front rest s' hnodes hx)

theorem forQueue_eq_foldlM {k : Queue} {body : Server → ℕ → ℕ → Except Stop Server} {s : Server}
    (hbody : ∀ s node c front rest s', (s.queue k).nodes = front ++ (node, c) :: rest →
      body s node c = .ok s' → ∃ front', (s'.queue k).nodes = front' ++ rest) :
    forQueue k body s = (s.queue k).nodes.foldlM (fun s x => body s x.1 x.2) s :=
  forEach_eq_foldlM hbody le_rfl ⟨[], rfl⟩

section Writes

variable {N : ℕ} {p : Prop} {s : Server} {c node : ℕ} {conn conn' : Conn}
  {ws : ℕ → List WriteResult} {fails : ℕ → Bool}

/-- A client after `installWriteHandler`. -/
def Conn.installed (mask : Events) (fails : Bool) (conn : Conn) : Conn :=
  if clientHasPendingReplies conn.out then
    if fails then conn.closing else { conn with events := aeCreateFileEvent conn.events mask }
  else conn

theorem flags_installed {mask : Events} {fails : Bool} :
    (conn.installed mask fails).flags = conn.flags := by
  rw [Conn.installed]
  split_ifs
  · exact flags_closing
  · rfl
  · rfl

theorem installed_served {barrier fails : Bool} :
    (conn.installed ⟨false, true, barrier⟩ fails).Served := by
  rw [Conn.installed]
  split_ifs with hpending
  · exact closing_served
  · refine fun _ _ _ _ => .inr (.inl ?_)
    exact Bool.or_true _
  · exact fun _ _ _ h => absurd h hpending

theorem installWriteHandler_spec (mask : Events) (fails : ℕ → Bool) (hc : s.slot c = .live conn) :
    ∃ s', installWriteHandler mask fails s c = .ok s'
      ∧ Becomes .close c (conn.installed mask (fails c)) s s' := by
  rw [installWriteHandler, get_live hc, Except.bind, Conn.installed]
  split_ifs
  · exact freeClientAsync_spec hc
  · exact ⟨_, rfl, .set hc rfl⟩
  · exact ⟨s, rfl, .refl hc⟩

/-- A client after its turn in `handleClientsWithPendingWrites`. -/
def Conn.directWrite (N : ℕ) (ws : List WriteResult) (fails barrier : Bool) (conn : Conn) :
    Except Stop Conn :=
  if conn.isProtected then .ok (conn.mark .write false)
  else
    ((conn.mark .write false).written N ws false).map fun x =>
      if x.2 then x.1.installed ⟨false, true, barrier⟩ fails else x.1

variable (N ws fails) in
/-- A turn of the loop is for one client, and takes its node out of the queue. -/
theorem handlePendingWrite_spec (hc : s.slot c = .live conn)
    (hmem : (node, c) ∈ (s.queue .write).nodes) :
    match conn.directWrite N (ws c) (fails c) (s.aofOn && s.aofFsyncAlways) with
    | .error e => handlePendingWrite N ws fails s node c = .error e
    | .ok conn' => ∃ s', handlePendingWrite N ws fails s node c = .ok s' ∧ (∀ p, Touch p c s s')
        ∧ s'.slot c = .live conn' ∧ s'.queue .write = (s.queue .write).without node
        ∧ s'.queue .read = s.queue .read := by
  have htaken : ∀ p, Touch p c s
      ((s.set c (conn.mark .write false)).setQueue .write ((s.queue .write).without node)) :=
    fun p => .mark hc (fun _ h => h.drop hmem) nofun nofun
  rw [handlePendingWrite, get_live hc, Except.bind]
  dsimp only
  rw [queue_set, listDelNode_of_mem hmem, Conn.directWrite]
  cases hprot : conn.isProtected with
  | true =>
    exact ⟨_, rfl, htaken, slot_set_self, queue_setQueue_self, queue_setQueue_of_ne (by decide)⟩
  | false =>
    generalize hs₁ : (s.set c (conn.mark .write false)).setQueue .write
      ((s.queue .write).without node) = s₁
      at htaken
    have hlive₁ : s₁.slot c = .live (conn.mark .write false) := hs₁ ▸ slot_set_self
    have hwrite₁ : s₁.queue .write = (s.queue .write).without node := hs₁ ▸ queue_setQueue_self
    have hread₁ : s₁.queue .read = s.queue .read := hs₁ ▸ queue_setQueue_of_ne (by decide)
    have haof : (s₁.aofOn && s₁.aofFsyncAlways) = (s.aofOn && s.aofFsyncAlways) :=
      congrArg (fun x => x.aofOn && x.aofFsyncAlways) (htaken False).settings
    have hspec := writeToClient_spec (N := N) (ws c) false hlive₁
    dsimp only
    rw [if_neg Bool.false_ne_true, if_neg Bool.false_ne_true, hs₁]
    rcases hw : (conn.mark .write false).written N (ws c) false with e | ⟨conn₂, ok⟩
    · rw [hw] at hspec
      rw [hspec]
      rfl
    · rw [hw] at hspec
      obtain ⟨s₂, hrun₂, hbecomes₂⟩ := hspec
      rw [hrun₂]
      cases ok with
      | false =>
        exact ⟨s₂, rfl, fun p => (htaken p).trans (hbecomes₂.touch p), hbecomes₂.live,
          (hbecomes₂.queue .write (by decide)).trans hwrite₁,
          (hbecomes₂.queue .read (by decide)).trans hread₁⟩
      | true =>
        obtain ⟨s₃, hrun₃, hbecomes₃⟩ :=
          installWriteHandler_spec ⟨false, true, s.aofOn && s.aofFsyncAlways⟩ fails hbecomes₂.live
        have hbecomes := hbecomes₂.trans hbecomes₃
        refine ⟨s₃, ?_, fun p => (htaken p).trans (hbecomes.touch p), hbecomes.live,
          (hbecomes.queue .write (by decide)).trans hwrite₁,
          (hbecomes.queue .read (by decide)).trans hread₁⟩
        show installWriteHandler ⟨false, true, s₁.aofOn && s₁.aofFsyncAlways⟩ fails s₂ c = .ok s₃
        rw [haof]
        exact hrun₃

theorem directWrite_error {ws : List WriteResult} {fails barrier : Bool} {e : Stop}
    (h : conn.directWrite N ws fails barrier = .error e) : ∃ fault, e = .output fault := by
  rw [Conn.directWrite] at h
  split at h
  · cases h
  · rcases hw : (conn.mark .write false).written N ws false with e' | x
    · rw [hw] at h
      exact Except.error.inj h ▸ written_error hw
    · rw [hw] at h
      cases h

/-- After its turn a client has no replies that are forgotten. -/
theorem directWrite_served {ws : List WriteResult} {fails barrier : Bool}
    (h : conn.directWrite N ws fails barrier = .ok conn') :
    conn'.flags = conn.flags ∧ conn'.Served := by
  rw [Conn.directWrite] at h
  split at h
  · rename_i hprot
    obtain rfl := Except.ok.inj h
    exact ⟨rfl, fun _ hunprot => absurd (hprot.symm.trans hunprot) (by decide)⟩
  · obtain ⟨x, hx, rfl⟩ := Jobs.map_eq_ok h
    obtain ⟨⟨out, data, err⟩, -, rfl⟩ := written_ok hx
    cases err with
    | false => exact ⟨flags_installed, installed_served⟩
    | true => exact ⟨flags_closing, closing_served⟩

variable (N ws fails p) in
theorem handlePendingWrite_sane (hs : s.Ready) (hmem : (node, c) ∈ (s.queue .write).nodes) :
    Sane p s (handlePendingWrite N ws fails s node c) := by
  obtain ⟨conn, hc, -⟩ := (hs .write (by decide)).live hmem
  have hspec := handlePendingWrite_spec N ws fails hc hmem
  rcases hw : conn.directWrite N (ws c) (fails c) (s.aofOn && s.aofFsyncAlways) with e | conn'
  · rw [hw] at hspec
    rw [hspec]
    exact .inl (directWrite_error hw)
  · rw [hw] at hspec
    obtain ⟨s', hrun, htouch, hlive, -, hread⟩ := hspec
    obtain ⟨hflags, hserved⟩ := directWrite_served hw
    rw [hrun]
    exact (htouch p).next hc hlive (fun hfd => (congrArg _ hflags).trans hfd) (fun _ => hserved)
      (.inl fun x hx => hread.symm ▸ hx)

theorem nodes_handlePendingWrite {s' : Server} {front rest : List (ℕ × ℕ)}
    (hnodes : (s.queue .write).nodes = front ++ (node, c) :: rest)
    (hrun : handlePendingWrite N ws fails s node c = .ok s') :
    (s'.queue .write).nodes = front ++ rest := by
  have hmem : (node, c) ∈ (s.queue .write).nodes := by simp [hnodes]
  obtain ⟨conn, hc⟩ : ∃ conn, s.slot c = .live conn := by
    rw [handlePendingWrite, Server.get] at hrun
    split at hrun
    · exact ⟨_, ‹_›⟩
    · cases hrun
  have hspec := handlePendingWrite_spec N ws fails hc hmem
  rcases hw : conn.directWrite N (ws c) (fails c) (s.aofOn && s.aofFsyncAlways) with e | conn'
  · rw [hw] at hspec
    exact nomatch hspec.symm.trans hrun
  · rw [hw] at hspec
    obtain ⟨s₁, hrun₁, -, -, hwrite, -⟩ := hspec
    obtain rfl : s₁ = s' := Except.ok.inj (hrun₁.symm.trans hrun)
    rw [hwrite]
    exact nodes_without_of_split hnodes

theorem handleClientsWithPendingWrites_eq :
    handleClientsWithPendingWrites N ws fails s
      = (s.queue .write).nodes.foldlM (fun s x => handlePendingWrite N ws fails s x.1 x.2) s :=
  forQueue_eq_foldlM fun _ _ _ front _ _ hnodes hrun =>
    ⟨front, nodes_handlePendingWrite hnodes hrun⟩

theorem handleClientsWithPendingWrites_sane (hs : s.Ready) :
    Sane p s (handleClientsWithPendingWrites N ws fails s) := by
  rw [handleClientsWithPendingWrites_eq]
  -- the queue is what is still to be done
  generalize hnodes : (s.queue .write).nodes = rest
  induction rest generalizing s with
  | nil => exact Server.Next.refl
  | cons x rest ih =>
    have hnodes : (s.queue .write).nodes = [] ++ (x.1, x.2) :: rest := hnodes
    have hmem : (x.1, x.2) ∈ (s.queue .write).nodes := hnodes ▸ List.mem_cons_self
    refine Sane.bind hs (handlePendingWrite_sane N p ws fails hs hmem) fun s₁ hrun hs₁ => ?_
    exact ih hs₁ (nodes_handlePendingWrite hnodes hrun)

theorem flushSlavesOutputBuffers_sane (slaves : List ℕ) (hs : s.Ready) :
    Sane p s (flushSlavesOutputBuffers N slaves ws s) := by
  refine Sane.foldlM hs fun s c _ _ => ?_
  split
  · split
    · exact writeToClient_sane (ws c) false ‹_›
    · exact Server.Next.refl
  · exact Server.Next.refl

end Writes

/-! ### Commands -/

section Acts

variable {N : ℕ} {p : Prop} {s : Server} {c : ℕ}

/-- The command puts a client into `clients_pending_read`. -/
def Act.Postpones (s : Server) : Act → Prop
  | .postponeClientRead c => ClientQueues.Postpones s c
  | _ => False

theorem onLive_sane {f : Conn → Except Stop Server}
    (h : ∀ conn, s.slot c = .live conn → Sane p s (f conn)) :
    Sane p s (s.onLive c f) := by
  rw [Server.onLive]
  split
  · exact h _ ‹_›
  · exact Server.Next.refl

theorem create_next {conn : Conn} (hq : ∀ k, conn.queued k = false)
    (hout : clientHasPendingReplies conn.out = false) : s.Next p (s.create c conn) := by
  rw [Server.create]
  split
  · rename_i hc
    have htouch : Touch p c s (s.set c conn) := by
      refine .of_flag (fun _ hd => slot_set_of_ne hd) rfl (fun k => ?_) rfl
      have hflag : s.flag k c = false := by rw [Server.flag, hc]
      rw [flag_set, hq k, ← hflag, update_eq_self]
    refine htouch.toNext (fun hd => ?_) (fun _ conn' hd => ?_) (.inl fun _ hx => hx)
    · rw [Server.Gone, hc] at hd
      exact hd.elim
    · obtain rfl : conn = conn' := Slot.live.inj (slot_set_self.symm.trans hd)
      exact fun _ _ _ h => absurd (hout.symm.trans h) Bool.false_ne_true
  · exact .refl

/-- **A command** neither fails an assertion nor uses what was freed, and it keeps what
`Server.Next` says. -/
theorem act_sane (a : Act) (hs : s.Ready) (hp : a.Postpones s → p) : Sane p s (act N s a) := by
  cases a with
  | createClient c fd => exact create_next (fun _ => rfl) rfl
  | createFakeClient c lua module => exact create_next (fun _ => rfl) rfl
  | setFlags c f blocked => exact onLive_sane fun conn hc => next_set hc rfl id id
  | setReplstate c state putOnlineOnAck =>
    exact onLive_sane fun conn hc => next_set hc rfl id fun _ _ _ hrepl => nomatch hrepl
  | setServer master aofOn aofFsyncAlways =>
    exact ⟨⟨fun _ _ h => h, fun _ h => h, fun _ hx => .inl hx, id⟩, .refl⟩
  | reply c call => exact onLive_sane fun conn hc => reply_sane call hc
  | addReplyFromClient dst src slack =>
    exact onLive_sane fun d hd => onLive_sane fun r hr => addReplyFromClient_sane slack hd hr
  | clientInstallWriteHandler c =>
    refine onLive_sane fun conn hc => .of_next ?_
    obtain ⟨s', hrun, hbecomes⟩ := clientInstallWriteHandler_spec hc
    refine ⟨s', hrun, hbecomes.next hc (by decide) (congrArg _ flags_scheduled) ?_⟩
    exact fun _ _ _ hrepl _ => .inl (queued_scheduled (replstate_scheduled.symm.trans hrepl))
  | postponeClientRead c =>
    refine onLive_sane fun conn hc => ?_
    obtain ⟨x, hrun, hnext⟩ := postponeClientRead_next hc hp
    rw [hrun]
    exact hnext
  | freeClientAsync c => exact onLive_sane fun conn hc => .of_next (freeClientAsync_next hc)
  | unlinkClient c => exact onLive_sane fun conn hc => unlinkClient_sane hs hc
  | freeClient c => exact onLive_sane fun conn hc => freeClient_sane hs hc
  | protectClient c => exact onLive_sane fun conn hc => .of_next (protectClient_next hc)
  | unprotectClient c fails =>
    exact onLive_sane fun conn hc => .of_next (unprotectClient_next fails hc)
  | sendReplyToClient c ws => exact onLive_sane fun conn hc => writeToClient_sane ws true hc
  | handleClientsWithPendingWrites ws fails => exact handleClientsWithPendingWrites_sane hs
  | flushSlavesOutputBuffers slaves ws => exact flushSlavesOutputBuffers_sane slaves hs

end Acts

/-! ### Servers with clients of one kind -/

/-- The clients below `n`, which were all put into the queue `k`. -/
def Server.uniform (settings : Settings) (n : ℕ) (k : Queue) (conn : Conn) : Server where
  toSettings := settings
  slot := fun c => if c < n then .live conn else .unused
  queue := update (fun _ => listCreate) k ((List.range n).foldl listAddNodeHead listCreate)

section Uniform

variable {settings : Settings} {n : ℕ} {k : Queue} {conn : Conn}

theorem values_foldl_listAddNodeHead (l : List ℕ) (q : NodeList ℕ) :
    (l.foldl listAddNodeHead q).values = l.reverse ++ q.values := by
  induction l generalizing q with
  | nil => rfl
  | cons c l ih =>
    rw [List.foldl_cons, ih, List.reverse_cons, List.append_assoc]
    rfl

theorem uniform_live {c : ℕ} {conn' : Conn}
    (h : (Server.uniform settings n k conn).slot c = .live conn') :
    conn' = conn := by
  have h : (if c < n then Slot.live conn else .unused) = .live conn' := h
  split at h
  · exact (Slot.live.inj h).symm
  · cases h

theorem uniform_agree (hk : conn.queued k = true) (hk' : ∀ k', k' ≠ k → conn.queued k' = false)
    (k' : Queue) : (Server.uniform settings n k conn).Agree k' := by
  intro c
  have hflag : (Server.uniform settings n k conn).flag k' c = if c < n then
      conn.queued k' else false := by
    rw [Server.flag, Server.uniform]
    dsimp only
    split_ifs <;> rfl
  rw [hflag]
  rcases eq_or_ne k' k with rfl | hne
  · have hqueue : (Server.uniform settings n k' conn).queue k'
        = (List.range n).foldl listAddNodeHead listCreate := by simp [Server.uniform]
    rw [hqueue, values_foldl_listAddNodeHead, hk]
    show List.count c ((List.range n).reverse ++ []) = _
    rw [List.append_nil, List.count_reverse]
    split_ifs with hc
    · exact List.count_eq_one_of_mem List.nodup_range (List.mem_range.mpr hc)
    · exact List.count_eq_zero_of_not_mem fun hmem => hc (List.mem_range.mp hmem)
  · have hqueue : (Server.uniform settings n k conn).queue k' = listCreate := by
      simp [Server.uniform, hne]
    rw [hqueue, hk' k' hne, ite_self]
    rfl

end Uniform

end ClientQueues
