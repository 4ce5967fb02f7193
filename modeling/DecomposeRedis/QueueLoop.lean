/-
The second loop of `handleClientsWithPendingReadsUsingThreads`.

The loop goes through `clients_pending_read` while the commands that it executes change
the queue: they unlink clients and, in a re-entered event loop, postpone others.  The
nodes ahead of the iterator stay ahead of it (`FlagQueue.Walk`), but two things can go
wrong.  The return value of `processCommandAndResetClient` is not looked at, so the
client may have been freed by its own command; and the iterator is at the next node
already, which may have been freed with its client.  `second_loop_safe_iff` says that
nothing else goes wrong, and that every client that stays connected is handled once.
-/
import DecomposeRedis.QueueActs
import DecomposeRedis.Runs

namespace ClientQueues

open Networking Adlist FlagQueue Function

/-- Every turn of a loop meets the condition in the state it is taken in; the condition
also gets the node that the iterator goes to next. -/
def LoopMeets {σ : Type} (queue : σ → NodeList ℕ) (body : σ → ℕ → ℕ → Except Stop σ)
    (ok : σ → ℕ → Option ℕ → Prop) : ℕ → Option ℕ → σ → Prop
  | _, none, _ => True
  | 0, some _, _ => True
  | fuel + 1, some node, s =>
    ∀ c next, listNext (queue s) node = some (c, next) →
      ok s c next ∧ ∀ s', body s node c = .ok s' → LoopMeets queue body ok fuel next s'

/-- The flags of a client are cleared at the start of its turn. -/
def turnStart (s : Server) (c : ℕ) (conn : Conn) : Server :=
  s.set c { conn.mark .read false with pendingCommand := false }

section Turn

variable {N fuel : ℕ} {r : Reads} {s : Server} {c node : ℕ} {conn : Conn} {rest : List (ℕ × ℕ)}
  {x : Server × List ℕ}

theorem turnStart_view (s : Server) (c : ℕ) (conn : Conn) :
    (turnStart s c conn).view .read = ⟨s.queue .read, update (s.flag .read) c false⟩ := by
  have hflag : (turnStart s c conn).flag .read = update (s.flag .read) c false := by
    rw [turnStart, flag_set]
    rw [queued_mark_self]
  rw [Server.view, hflag]
  rfl

theorem turnStart_later (hc : s.slot c = .live conn) : s.Later (turnStart s c conn) where
  agree := by
    intro k hk hs
    have hflag : (turnStart s c conn).flag k = s.flag k := flag_set_of_eq hc (queued_mark_of_ne hk)
    rw [Server.Agree, hflag]
    exact hs
  gone := by
    intro d hd
    rcases eq_or_ne d c with rfl | hne
    · rw [Server.Gone, hc] at hd
      exact (gone_live slot_set_self).mpr hd
    · rwa [Server.Gone, turnStart, slot_set_of_ne hne]
  kept := fun _ hx => .inl hx
  served := by
    intro hs d conn' hd
    rcases eq_or_ne d c with rfl | hne
    · obtain rfl := Slot.live.inj (slot_set_self.symm.trans hd)
      exact hs d conn hc
    · exact hs d conn' ((slot_set_of_ne hne).symm.trans hd)

theorem turnStart_walk (h : Walk (s.view .read) ((node, c) :: rest)) :
    Walk ((turnStart s c conn).view .read) rest := by
  rw [turnStart_view]
  exact h.next

theorem acts_sane (l : List Act) (hs : s.Ready) : Sane True s (acts N s l) :=
  Sane.foldlM hs fun _ a _ hs => act_sane a hs fun _ => trivial

/-- A turn, for a client that can be used. -/
theorem handlePendingRead_eq (node : ℕ) (handled : List ℕ) (hc : s.slot c = .live conn) :
    handlePendingRead N r (s, handled) node c = (executePending N r s c conn).bind fun s₁ =>
      if s₁.isLive c then (acts N s₁ (r.input c)).map fun s₂ => (s₂, handled ++ [c])
      else .error .freed := by
  rw [handlePendingRead, get_live hc, Except.bind]
  congr 1
  funext s₁
  rw [Server.get, Server.isLive]
  cases s₁.slot c <;> rfl

theorem executePending_sane (hs : s.Ready) (hc : s.slot c = .live conn) :
    Sane True (turnStart s c conn) (executePending N r s c conn) := by
  rw [executePending]
  split
  · exact acts_sane _ ((turnStart_later hc).ready hs)
  · exact Server.Next.refl

/-- What a turn leads to. -/
inductive TurnEnds (N : ℕ) (r : Reads) (s : Server) (rest : List (ℕ × ℕ)) (handled : List ℕ)
    (node c : ℕ) :
    Prop where
  /-- a command ends in the output of a client -/
  | output (fault : Fault)
      (hrun : handlePendingRead N r (s, handled) node c = .error (.output fault))
      (hlive : ∀ conn s₁, s.slot c = .live conn → executePending N r s c conn = .ok s₁ →
        s₁.isLive c = true ∧ ∀ s₂, acts N s₁ (r.input c) ≠ .ok s₂)
  /-- the client was freed by its pending command -/
  | freed (hrun : handlePendingRead N r (s, handled) node c = .error .freed) {conn : Conn}
      {s₁ : Server}
      (hc : s.slot c = .live conn) (hexec : executePending N r s c conn = .ok s₁)
      (hdead : s₁.isLive c = false)
  /-- the client was handled -/
  | handled (s₂ : Server)
      (hrun : handlePendingRead N r (s, handled) node c = .ok (s₂, handled ++ [c]))
      {conn : Conn} {s₁ : Server} (hc : s.slot c = .live conn)
      (hexec : executePending N r s c conn = .ok s₁) (hlive : s₁.isLive c = true)
      (hacts : acts N s₁ (r.input c) = .ok s₂) (hlater : s.Later s₂)
      (hwalk : Walk (s₂.view .read) (stillLinked (s₂.queue .read) rest))
      (hold : ∀ x ∈ rest, x.1 ∈ (s₂.queue .read).nodes.map Prod.fst → x ∈ (s₂.queue .read).nodes)

theorem turnEnds (r : Reads) (handled : List ℕ) (hs : s.Ready)
    (hw : Walk (s.view .read) ((node, c) :: rest)) : TurnEnds N r s rest handled node c := by
  obtain ⟨conn, hc, -⟩ := live_of_flag (hw.flagged _ List.mem_cons_self)
  have hlater := turnStart_later hc
  have hstart : Walk ((turnStart s c conn).view .read) rest := turnStart_walk hw
  have hrun := handlePendingRead_eq (N := N) (r := r) node handled hc
  have hsane := executePending_sane (N := N) (r := r) hs hc
  rcases hexec : executePending N r s c conn with e | s₁
  · rw [hexec] at hsane hrun
    rcases hsane with ⟨fault, rfl⟩ | ⟨-, hlost⟩
    · refine .output fault hrun fun conn' s₁ hc' hexec' => ?_
      obtain rfl : conn' = conn := Slot.live.inj (hc'.symm.trans hc)
      exact nomatch hexec.symm.trans hexec'
    · exact absurd hstart.linked hlost
  · rw [hexec] at hsane hrun
    have hnext₁ : (turnStart s c conn).Next True s₁ := hsane
    have hrun : handlePendingRead N r (s, handled) node c = if s₁.isLive c then
      (acts N s₁ (r.input c)).map fun s₂ => (s₂, handled ++ [c]) else .error .freed := hrun
    cases hlive : s₁.isLive c with
    | false =>
      rw [hlive] at hrun
      exact .freed hrun hc hexec hlive
    | true =>
      rw [hlive, if_pos rfl] at hrun
      have hsane₂ := acts_sane (N := N) (r.input c) (hnext₁.ready (hlater.ready hs))
      rcases hacts : acts N s₁ (r.input c) with e | s₂
      · rw [hacts] at hsane₂ hrun
        rcases hsane₂ with ⟨fault, rfl⟩ | ⟨-, hlost⟩
        · refine .output fault hrun fun conn' s₁' hc' hexec' => ?_
          obtain rfl : conn' = conn := Slot.live.inj (hc'.symm.trans hc)
          obtain rfl : s₁' = s₁ := Except.ok.inj (hexec'.symm.trans hexec)
          exact ⟨hlive, fun s₂ h => nomatch hacts.symm.trans h⟩
        · exact absurd (hnext₁.found hstart.linked) hlost
      · rw [hacts] at hsane₂ hrun
        have hnext₂ : (turnStart s c conn).Next True s₂ := hnext₁.trans hsane₂
        refine .handled s₂ hrun hc hexec hlive hacts (hlater.trans hnext₂.toLater)
          (hstart.moves hnext₂.read) fun x hx hmem => ?_
        -- a node has the value it had
        obtain ⟨y, hy, heq⟩ := List.mem_map.mp hmem
        have hx₀ := hstart.mem hx
        have hlt : y.1 < ((turnStart s c conn).view .read).queue.fresh :=
          heq ▸ ((turnStart s c conn).view .read).queue.lt_fresh x hx₀
        have hy₀ := hnext₂.read.old.2 y hy hlt
        obtain rfl : y = x := List.inj_on_of_nodup_map (NodeList.nodup _) hy₀ hx₀ heq
        exact hy

/-- The second loop, from a node on. -/
def loop (N : ℕ) (r : Reads) : ℕ → Option ℕ → Server × List ℕ → Except Stop (Server × List ℕ) :=
  forEach (fun x => x.1.queue .read) (handlePendingRead N r)

theorem listNext_walk (hw : Walk (s.view .read) ((node, c) :: rest)) :
    listNext (s.queue .read) node = some (c, rest.head?.map Prod.fst) := by
  obtain ⟨front, hnodes, -⟩ := hw.ahead
  exact listNext_eq hnodes

theorem loop_succ (fuel : ℕ) (handled : List ℕ) (hw : Walk (s.view .read) ((node, c) :: rest)) :
    loop N r (fuel + 1) (some node) (s, handled)
      = (handlePendingRead N r (s, handled) node c).bind
        (loop N r fuel (rest.head?.map Prod.fst)) := by
  rw [loop, forEach, listNext_walk hw]

/-- After a turn the iterator is at the first of the nodes that are still ahead, or at a
node that was freed, which is followed. -/
theorem loop_moved (hfuel : rest.length ≤ fuel)
    (hold : ∀ y ∈ rest, y.1 ∈ (x.1.queue .read).nodes.map Prod.fst → y ∈ (x.1.queue .read).nodes) :
    (stillLinked (x.1.queue .read) rest).head? = rest.head? ∨
      ∃ n, rest.head?.map Prod.fst = some n ∧ n ∉ (x.1.queue .read).nodes.map Prod.fst ∧
        loop N r fuel (rest.head?.map Prod.fst) x = .error .dangling := by
  cases rest with
  | nil => exact .inl rfl
  | cons y t =>
    by_cases hy : y ∈ (x.1.queue .read).nodes
    · refine .inl ?_
      rw [stillLinked, List.filter_cons_of_pos (by simpa using hy)]
      rfl
    · have hlost : y.1 ∉ (x.1.queue .read).nodes.map Prod.fst :=
        fun hmem => hy (hold y List.mem_cons_self hmem)
      have hnone : listNext (x.1.queue .read) y.1 = none := linkedAt_eq_none hlost
      obtain ⟨fuel, rfl⟩ := Nat.exists_eq_add_one_of_ne_zero (Nat.ne_zero_of_lt hfuel)
      refine .inr ⟨y.1, rfl, hlost, ?_⟩
      rw [List.head?_cons, Option.map_some, loop, forEach, hnone]

/-- **What the loop does.**  The clients are handled in the order of the queue; those
that are not handled are gone. -/
theorem loop_ends (handled : List ℕ) (hs : s.Ready) (hw : Walk (s.view .read) rest)
    (hfuel : rest.length ≤ fuel) :
    match loop N r fuel (rest.head?.map Prod.fst) (s, handled) with
    | .ok x => ∃ l, x.2 = handled ++ l ∧ l.Sublist (rest.map Prod.snd) ∧ s.Later x.1
        ∧ ∀ y ∈ rest, y.2 ∈ l ∨ x.1.Gone y.2
    | .error e => (∃ fault, e = .output fault) ∨ e = .freed ∨ e = .dangling := by
  induction fuel generalizing rest s handled with
  | zero =>
    obtain rfl := List.length_eq_zero_iff.mp (Nat.le_zero.mp hfuel)
    exact ⟨[], (List.append_nil _).symm, List.Sublist.refl _, .refl, nofun⟩
  | succ fuel ih =>
    rcases rest with _ | ⟨⟨node, c⟩, rest⟩
    · exact ⟨[], (List.append_nil _).symm, List.Sublist.refl _, .refl, nofun⟩
    have hfuel : rest.length ≤ fuel := by simpa using hfuel
    rw [List.head?_cons, Option.map_some, loop_succ fuel handled hw]
    cases turnEnds (N := N) r handled hs hw with
    | output fault hrun _ =>
      rw [hrun]
      exact .inl ⟨fault, rfl⟩
    | freed hrun _ _ _ =>
      rw [hrun]
      exact .inr (.inl rfl)
    | handled s₂ hrun _ _ _ _ hlater hwalk hold =>
      rw [hrun]
      show match loop N r fuel (rest.head?.map Prod.fst) (s₂, handled ++ [c]) with
        | .ok x => _ | .error e => _
      rcases loop_moved (x := (s₂, handled ++ [c])) hfuel hold with hhead | ⟨n, hn, hlost, hfreed⟩
      · have hrest := ih (handled ++ [c]) (hlater.ready hs) hwalk
          ((List.length_filter_le _ _).trans hfuel)
        rw [hhead] at hrest
        rcases hloop : loop N r fuel (rest.head?.map Prod.fst) (s₂, handled ++ [c]) with e | x
        · rw [hloop] at hrest
          exact hrest
        · rw [hloop] at hrest
          obtain ⟨l, hl, hsub, hlater', hdone⟩ := hrest
          refine ⟨c :: l, by rw [hl, List.append_assoc]; rfl,
            List.Sublist.cons_cons c (hsub.trans (List.filter_sublist.map _)),
              hlater.trans hlater', ?_⟩
          intro z hz
          rcases List.mem_cons.mp hz with rfl | hz
          · exact .inl List.mem_cons_self
          · rcases hlater.kept z (hw.mem (List.mem_cons_of_mem _ hz)) with hkept | hgone
            · exact (hdone z (mem_stillLinked.mpr ⟨hz, hkept⟩)).imp_left (List.mem_cons_of_mem _)
            · exact .inr (hlater'.gone _ hgone)
      · rw [hfreed]
        exact .inr (.inr rfl)

/-! ### When the loop is safe -/

/-- The commands of a turn spare what the loop still needs: the pending command does not
free its own client, and the commands do not unlink the client at the node to which the
iterator has moved. -/
def Spares (N : ℕ) (r : Reads) (x : Server × List ℕ) (c : ℕ) (next : Option ℕ) : Prop :=
  ∀ conn s₁, x.1.slot c = .live conn → executePending N r x.1 c conn = .ok s₁ →
    s₁.isLive c = true ∧ ∀ s₂, acts N s₁ (r.input c) = .ok s₂ →
      ∀ node, next = some node → node ∈ (s₂.queue .read).nodes.map Prod.fst

/-- A loop that is spared is one that does not use what was freed. -/
theorem loop_spares_iff (handled : List ℕ) (hs : s.Ready) (hw : Walk (s.view .read) rest)
    (hfuel : rest.length ≤ fuel) :
    LoopMeets (fun x => x.1.queue .read) (handlePendingRead N r) (Spares N r) fuel
        (rest.head?.map Prod.fst) (s, handled)
      ↔ loop N r fuel (rest.head?.map Prod.fst) (s, handled) ≠ .error .freed
        ∧ loop N r fuel (rest.head?.map Prod.fst) (s, handled) ≠ .error .dangling := by
  induction fuel generalizing rest s handled with
  | zero =>
    obtain rfl := List.length_eq_zero_iff.mp (Nat.le_zero.mp hfuel)
    exact ⟨fun _ => ⟨nofun, nofun⟩, fun _ => trivial⟩
  | succ fuel ih =>
    rcases rest with _ | ⟨⟨node, c⟩, rest⟩
    · exact ⟨fun _ => ⟨nofun, nofun⟩, fun _ => trivial⟩
    have hfuel : rest.length ≤ fuel := by simpa using hfuel
    have hmeets : LoopMeets (fun x => x.1.queue .read) (handlePendingRead N r)
        (Spares N r) (fuel + 1)
        (some node) (s, handled)
        ↔ Spares N r (s, handled) c (rest.head?.map Prod.fst)
          ∧ ∀ x, handlePendingRead N r (s, handled) node c = .ok x →
            LoopMeets (fun x => x.1.queue .read) (handlePendingRead N r) (Spares N r) fuel
              (rest.head?.map Prod.fst) x := by
      rw [LoopMeets]
      rw [listNext_walk hw]
      exact ⟨fun h => h c _ rfl, fun h c' next heq => by cases heq; exact h⟩
    rw [List.head?_cons, Option.map_some, hmeets, loop_succ fuel handled hw]
    cases turnEnds (N := N) r handled hs hw with
    | output fault hrun hlive =>
      rw [hrun]
      refine ⟨fun _ => ⟨nofun, nofun⟩, fun _ => ⟨fun conn s₁ hc hexec => ?_, nofun⟩⟩
      obtain ⟨hlive, herr⟩ := hlive conn s₁ hc hexec
      exact ⟨hlive, fun s₂ hacts => absurd hacts (herr s₂)⟩
    | freed hrun hc hexec hdead =>
      rw [hrun]
      exact ⟨fun h => absurd (h.1 _ _ hc hexec).1 (by rw [hdead]; decide), fun h => absurd rfl h.1⟩
    | @handled s₂ hrun conn s₁ hc hexec hlive hacts hlater hwalk hold =>
      rw [hrun]
      show _ ↔ loop N r fuel (rest.head?.map Prod.fst) (s₂, handled ++ [c]) ≠ _
        ∧ loop N r fuel (rest.head?.map Prod.fst) (s₂, handled ++ [c]) ≠ _
      rcases loop_moved (x := (s₂, handled ++ [c])) hfuel hold with hhead | ⟨n, hn, hlost, hfreed⟩
      · have hrest := ih (handled ++ [c]) (hlater.ready hs) hwalk
          ((List.length_filter_le _ _).trans hfuel)
        rw [hhead] at hrest
        rw [← hrest]
        refine ⟨fun h => h.2 _ rfl, fun h => ⟨fun conn' s₁' hc' hexec' => ?_, fun x hx => ?_⟩⟩
        · obtain rfl : conn' = conn := Slot.live.inj (hc'.symm.trans hc)
          obtain rfl : s₁' = s₁ := Except.ok.inj (hexec'.symm.trans hexec)
          refine ⟨hlive, fun s₂' hacts' n hn => ?_⟩
          obtain rfl : s₂' = s₂ := Except.ok.inj (hacts'.symm.trans hacts)
          rw [← hhead] at hn
          obtain ⟨y, hy, rfl⟩ := Option.map_eq_some_iff.mp hn
          exact List.mem_map.mpr ⟨y, (mem_stillLinked.mp (List.mem_of_head? hy)).2, rfl⟩
        · obtain rfl := Except.ok.inj hx
          exact h
      · rw [hfreed]
        exact ⟨fun h => absurd ((h.1 conn s₁ hc hexec).2 s₂ hacts n hn) hlost, fun h =>
          absurd rfl h.2⟩

/-- **The threaded-read loop.**  The second loop follows only nodes that are linked and
uses only clients that were not freed, and every client that stays connected is
handled once, exactly if the commands spare what the loop needs. -/
theorem second_loop_safe_iff (N : ℕ) (r : Reads) (s : Server) (hs : ∀ k, s.Agree k) :
    (match secondLoop N r s with
      | .ok x => ∀ c, x.2.count c ≤ 1 ∧ (c ∈ x.2 → c ∈ (s.queue .read).values)
          ∧ ∀ conn, c ∈ (s.queue .read).values → x.1.slot c = .live conn → conn.flags.fd ≠ -1 →
            x.2.count c = 1
      | .error e => e ≠ .freed ∧ e ≠ .dangling)
    ↔ LoopMeets (fun x => x.1.queue .read) (handlePendingRead N r) (Spares N r)
        (listLength (s.queue .read)) (listRewind (s.queue .read)) (s, []) := by
  have hready : s.Ready := fun k _ => hs k
  have hwalk : Walk (s.view .read) (s.queue .read).nodes :=
    Agree.walk (v := s.view .read) (hs .read)
  have hends := loop_ends (N := N) (r := r) [] hready hwalk le_rfl
  have hiff := loop_spares_iff (N := N) (r := r) [] hready hwalk le_rfl
  show _ ↔ LoopMeets _ _ _ (s.queue .read).nodes.length _ _
  rw [listRewind, hiff]
  have hloop : secondLoop N r s = loop N r (s.queue .read).nodes.length
    ((s.queue .read).nodes.head?.map Prod.fst) (s, []) := rfl
  rw [hloop]
  rcases hrun : loop N r (s.queue .read).nodes.length
    ((s.queue .read).nodes.head?.map Prod.fst) (s, [])
    with e | x
  · exact ⟨fun h => ⟨fun heq => h.1 (Except.error.inj heq), fun heq => h.2 (Except.error.inj heq)⟩,
      fun h => ⟨fun heq => h.1 (congrArg _ heq), fun heq => h.2 (congrArg _ heq)⟩⟩
  · refine ⟨fun _ => ⟨nofun, nofun⟩, fun _ c => ?_⟩
    rw [hrun] at hends
    obtain ⟨l, hl, hsub, -, hdone⟩ := hends
    have hnodup : l.Nodup := hwalk.nodup.sublist hsub
    rw [hl]
    refine ⟨List.nodup_iff_count_le_one.mp hnodup c, fun hc => hsub.subset hc,
      fun conn hc hconn hfd => ?_⟩
    refine List.count_eq_one_of_mem hnodup ?_
    obtain ⟨node, hnode⟩ := NodeList.mem_values.mp hc
    refine (hdone _ hnode).resolve_right fun hgone => ?_
    rw [Server.Gone, hconn] at hgone
    exact hfd hgone

/-- Where a call has failed. -/
def stopOf {α : Type} : Except Stop α → Option Stop
  | .ok _ => none
  | .error e => some e

/-- Two clients whose commands were parsed by the I/O threads.  Client 1 comes first. -/
def twoReaders : Server :=
  .uniform ⟨false, 2, true, true, false, false, .emptying⟩ 2 .read
    { Conn.fresh (freshFlags 7) nofun with queued := fun k => k = .read, pendingCommand := true }

/-- The pending command of the client `killer` is to kill the client `victim`. -/
def killing (killer victim : ℕ) : Reads :=
  ⟨[], fun c => if c = killer then [.freeClient victim] else [], fun _ => []⟩

theorem second_loop_safe_iff_kill_previous :
    LoopMeets (fun x => x.1.queue .read) (handlePendingRead 65536 (killing 0 1))
      (Spares 65536 (killing 0 1))
      (listLength (twoReaders.queue .read)) (listRewind (twoReaders.queue .read))
        (twoReaders, []) := by
  refine (second_loop_safe_iff 65536 (killing 0 1) twoReaders
    (uniform_agree rfl fun _ hk => decide_eq_false hk)).mp ?_
  have hhandled : (secondLoop 65536 (killing 0 1) twoReaders).toOption.map Prod.snd
      = some [1, 0] := by
    decide +kernel
  rcases hrun : secondLoop 65536 (killing 0 1) twoReaders with e | x
  · rw [hrun] at hhandled
    cases hhandled
  · rw [hrun] at hhandled
    have hhandled : x.2 = [1, 0] := Option.some.inj hhandled
    have hvalues : (twoReaders.queue .read).values = [1, 0] := rfl
    have hnodup : [1, 0].Nodup := by decide
    intro c
    rw [hhandled, hvalues]
    exact ⟨List.nodup_iff_count_le_one.mp hnodup c, id, fun _ hc _ _ =>
      List.count_eq_one_of_mem hnodup hc⟩

/-- A client is freed by its own command, or by that of the client before it. -/
theorem second_loop_uses_freed :
    stopOf (secondLoop 65536 (killing 1 1) twoReaders) = some .freed
    ∧ stopOf (secondLoop 65536 (killing 1 0) twoReaders) = some .dangling := by
  decide +kernel

/-! ### A loop in which no read is postponed -/

/-- A command, as a step of a run. -/
def actStep (N : ℕ) (s : Server) (a : Act) : Option (Server × Unit) :=
  (act N s a).toOption.map fun s => (s, ())

/-- No client is put into `clients_pending_read`. -/
def QuietActs (N : ℕ) (s : Server) (l : List Act) : Prop :=
  Runs.Meets (actStep N) (fun s a => ¬ a.Postpones s) s l

theorem acts_sane_quiet {l : List Act} (hs : s.Ready) (h : QuietActs N s l) :
    Sane False s (acts N s l) := by
  induction l generalizing s with
  | nil => exact Server.Next.refl
  | cons a l ih =>
    refine Sane.bind hs (act_sane a hs h.1) fun s' hrun hs' => ih hs' (h.2 s' () ?_)
    rw [actStep, hrun]
    rfl

/-- In a turn of the second loop no read is postponed. -/
def QuietTurn (N : ℕ) (r : Reads) (x : Server × List ℕ) (c : ℕ) (_next : Option ℕ) : Prop :=
  ∀ conn, x.1.slot c = .live conn →
    QuietActs N (turnStart x.1 c conn) (if conn.pendingCommand then r.command c else [])
    ∧ ∀ s₁, executePending N r x.1 c conn = .ok s₁ → QuietActs N s₁ (r.input c)

theorem executePending_next_quiet {s₁ : Server} (hs : s.Ready) (hc : s.slot c = .live conn)
    (h : QuietActs N (turnStart s c conn) (if conn.pendingCommand then r.command c else []))
    (hexec : executePending N r s c conn = .ok s₁) : (turnStart s c conn).Next False s₁ := by
  rw [executePending] at hexec
  split at hexec
  · rename_i hcommand
    rw [if_pos hcommand] at h
    have hsane := acts_sane_quiet ((turnStart_later hc).ready hs) h
    have hexec : acts N (turnStart s c conn) (r.command c) = .ok s₁ := hexec
    rw [hexec] at hsane
    exact hsane
  · exact Except.ok.inj hexec ▸ .refl

/-- In the end no client is flagged. -/
theorem loop_quiet (handled : List ℕ) (hs : s.Ready) (hw : Walk (s.view .read) rest)
    (hall : ∀ c, s.flag .read c = true → c ∈ rest.map Prod.snd) (hfuel : rest.length ≤ fuel)
    (hquiet : LoopMeets (fun x => x.1.queue .read) (handlePendingRead N r) (QuietTurn N r) fuel
      (rest.head?.map Prod.fst) (s, handled))
    (hx : loop N r fuel (rest.head?.map Prod.fst) (s, handled) = .ok x) (c : ℕ) :
    x.1.flag .read c = false := by
  have hnil : rest = [] → s.flag .read c = false := by
    rintro rfl
    exact eq_false_of_ne_true fun hflag => nomatch hall c hflag
  induction fuel generalizing rest s handled with
  | zero =>
    obtain rfl := List.length_eq_zero_iff.mp (Nat.le_zero.mp hfuel)
    obtain rfl := Except.ok.inj hx
    exact hnil rfl
  | succ fuel ih =>
    rcases rest with _ | ⟨⟨node, d⟩, rest⟩
    · obtain rfl := Except.ok.inj hx
      exact hnil rfl
    have hfuel : rest.length ≤ fuel := by simpa using hfuel
    rw [List.head?_cons, Option.map_some] at hx hquiet
    obtain ⟨hturn, hrest⟩ := hquiet d _ (listNext_walk hw)
    rw [loop_succ fuel handled hw] at hx
    cases turnEnds (N := N) r handled hs hw with
    | output fault hrun _ =>
      rw [hrun] at hx
      cases hx
    | freed hrun _ _ _ =>
      rw [hrun] at hx
      cases hx
    | @handled s₂ hrun conn s₁ hd hexec hlive hacts hlater hwalk hold =>
      rw [hrun] at hx
      have hx : loop N r fuel (rest.head?.map Prod.fst) (s₂, handled ++ [d]) = .ok x := hx
      rcases loop_moved (x := (s₂, handled ++ [d])) hfuel hold with hhead | ⟨n, hn, hlost, hfreed⟩
      · obtain ⟨hcommand, hinput⟩ := hturn conn hd
        have hnext₁ := executePending_next_quiet hs hd hcommand hexec
        have hsane₂ := acts_sane_quiet (hnext₁.ready ((turnStart_later hd).ready hs))
          (hinput s₁ hexec)
        rw [hacts] at hsane₂
        have hnext : (turnStart s d conn).Next False s₂ := hnext₁.trans hsane₂
        -- the client that had its turn is not flagged any more, the others are ahead
        have hall' : ∀ e, ((turnStart s d conn).view .read).flag e = true →
            e ∈ rest.map Prod.snd := by
          intro e he
          rw [turnStart_view] at he
          have he : update (s.flag .read) d false e = true := he
          rcases eq_or_ne e d with rfl | hne
          · rw [update_self] at he
            cases he
          · rw [update_of_ne hne] at he
            exact (List.mem_cons.mp (hall e he)).resolve_left hne
        have hahead : ∀ e, s₂.flag .read e = true →
            e ∈ (stillLinked (s₂.queue .read) rest).map Prod.snd :=
          fun e he => (turnStart_walk hw).ahead_moves hnext.read hall' he
        have hloop := hrest _ hrun
        rw [← hhead] at hx hloop
        refine ih (handled ++ [d]) (hlater.ready hs) hwalk hahead
          ((List.length_filter_le _ _).trans hfuel)
          hloop hx fun hnil => eq_false_of_ne_true fun hflag => ?_
        have hmem := hahead c hflag
        rw [hnil] at hmem
        cases hmem
      · rw [hfreed] at hx
        cases hx

/-- Whatever the queue, a loop that returns keeps what a command keeps. -/
theorem loop_later {next : Option ℕ} {x' : Server × List ℕ} (hs : x.1.Ready)
    (h : loop N r fuel next x = .ok x') : x.1.Later x'.1 := by
  induction fuel generalizing next x with
  | zero =>
    cases next with
    | none => exact Except.ok.inj h ▸ .refl
    | some node => cases h
  | succ fuel ih =>
    cases next with
    | none => exact Except.ok.inj h ▸ .refl
    | some node =>
      rw [loop, forEach] at h
      split at h
      · cases h
      · rename_i c next' _
        obtain ⟨x₁, hrun, h⟩ := Jobs.bind_eq_ok h
        by_cases hlive : ∃ conn, x.1.slot c = .live conn
        · obtain ⟨conn, hc⟩ := hlive
          rw [handlePendingRead_eq node x.2 hc] at hrun
          have hsane := executePending_sane (N := N) (r := r) hs hc
          have hstart := turnStart_later hc
          obtain ⟨s₁, hexec, hrun⟩ := Jobs.bind_eq_ok hrun
          rw [hexec] at hsane
          have hnext₁ : (turnStart x.1 c conn).Next True s₁ := hsane
          split at hrun
          · have hsane₂ := acts_sane (N := N) (r.input c) (hnext₁.ready (hstart.ready hs))
            obtain ⟨s₂, hacts, rfl⟩ := Jobs.map_eq_ok hrun
            rw [hacts] at hsane₂
            have hlater : x.1.Later s₂ := hstart.trans (hnext₁.trans hsane₂).toLater
            exact hlater.trans (ih (hlater.ready hs) h)
          · cases hrun
        · have hdead : x.1.get c = .error .freed := by
            rw [Server.get]
            split
            · exact absurd ⟨_, ‹_›⟩ hlive
            · rfl
          rw [handlePendingRead, hdead] at hrun
          cases hrun

end Turn

end ClientQueues
