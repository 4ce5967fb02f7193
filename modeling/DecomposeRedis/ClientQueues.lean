/-
The queues of clients with work to do (networking.c).

A client with replies to send is put into `clients_pending_write`, one whose socket the
I/O threads are to read into `clients_pending_read`, and one that is to be freed later
into `clients_to_close`; a flag in the client tells whether it is there.  The queues
are served before the server sleeps, by the main thread or by the I/O threads, and the
main thread executes the commands that the threads have parsed.

A client is named by its address, and an address is not used twice.  What the commands
do to the queues is a list of `Act`s for each of them, a re-entered event loop
(`processEventsWhileBlocked`) included.  The accesses of the threads to a queue are
taken one after the other.  `Stop` is where the behaviour of the code ends.  The lists
of replicas, monitors and unblocked clients are kept by other files, and so is what a
client has read; both are left out.
-/
import DecomposeRedis.ReplyAccounting
import DecomposeRedis.NodeList
import DecomposeRedis.Jobs

namespace ClientQueues

open Networking Adlist

/-- `SLAVE_STATE_*` -/
inductive SlaveState where
  | waitBgsaveStart
  | waitBgsaveEnd
  | sendBulk
  | online
  deriving DecidableEq

/-- `clients_pending_read` with `CLIENT_PENDING_READ`, `clients_pending_write` with
`CLIENT_PENDING_WRITE`, and `clients_to_close` with `CLIENT_CLOSE_ASAP`. -/
inductive Queue where
  | read
  | write
  | close
  deriving DecidableEq

/-- The events of a socket: `AE_READABLE`, `AE_WRITABLE` and `AE_BARRIER`. -/
structure Events where
  readable : Bool
  writable : Bool
  barrier : Bool
  deriving DecidableEq

/-- `AE_NONE` -/
def Events.none : Events := ⟨false, false, false⟩

/-- `aeCreateFileEvent`, when it does not fail. -/
def aeCreateFileEvent (e mask : Events) : Events :=
  ⟨e.readable || mask.readable, e.writable || mask.writable, e.barrier || mask.barrier⟩

/-- `aeDeleteFileEvent`: the barrier goes with `AE_WRITABLE`. -/
def aeDeleteFileEvent (e mask : Events) : Events :=
  ⟨e.readable && !mask.readable, e.writable && !mask.writable,
    e.barrier && !(mask.barrier || mask.writable)⟩

/-- A client.  `replstate` is `none` for `REPL_STATE_NONE`.  The clients of scripts and
modules are created without a socket. -/
structure Conn where
  flags : ReplyFlags
  out : Output
  queued : Queue → Bool
  pendingCommand : Bool
  isProtected : Bool
  blocked : Bool
  replstate : Option SlaveState
  replPutOnlineOnAck : Bool
  events : Events
  noSocket : flags.lua = true ∨ flags.module = true → flags.fd = -1

/-- Set or clear the flag of a queue. -/
def Conn.mark (conn : Conn) (k : Queue) (b : Bool) : Conn :=
  { conn with queued := Function.update conn.queued k b }

/-- The memory at an address. -/
inductive Slot where
  | unused
  | live (conn : Conn)
  | freed

/-- What `replicationCacheMaster` does to a client that it has unlinked.  The function is
not in the files at hand; it is taken to keep the flags of the client, the queues it is in
and its state as a replica. -/
structure CacheMaster where
  apply : Conn → Conn
  flags_eq : ∀ conn, (apply conn).flags = conn.flags
  queued_eq : ∀ conn, (apply conn).queued = conn.queued
  isProtected_eq : ∀ conn, (apply conn).isProtected = conn.isProtected
  replstate_eq : ∀ conn, (apply conn).replstate = conn.replstate

/-- The replies that are not sent are dropped. -/
def CacheMaster.emptying : CacheMaster where
  apply conn := { conn with out := .empty }
  flags_eq _ := rfl
  queued_eq _ := rfl
  isProtected_eq _ := rfl
  replstate_eq _ := rfl

/-- Whether `server.master` is set, the I/O threads, whether `aof_state` is `AOF_ON` and
`aof_fsync` is `AOF_FSYNC_ALWAYS`, and how the client of the master is cached. -/
structure Settings where
  master : Bool
  ioThreadsNum : ℕ
  ioThreadsActive : Bool
  ioThreadsDoReads : Bool
  aofOn : Bool
  aofFsyncAlways : Bool
  cacheMaster : CacheMaster

/-- What the functions here look at of the server. -/
structure Server extends Settings where
  slot : ℕ → Slot
  queue : Queue → NodeList ℕ

/-- Where the code fails. -/
inductive Stop where
  /-- in the output of a client -/
  | output (fault : Fault)
  /-- `serverAssert(ln != NULL)` -/
  | assertion
  /-- `serverAssert(io_threads_active == 1)` -/
  | inactive
  /-- a client is used after it was freed -/
  | freed
  /-- a list node is used after it was freed -/
  | dangling
  /-- a loop does not end -/
  | endless
  deriving DecidableEq

namespace Server

/-- The client at an address, to be read. -/
def get (s : Server) (c : ℕ) : Except Stop Conn :=
  match s.slot c with
  | .live conn => .ok conn
  | _ => .error .freed

/-- Write the client at an address. -/
def set (s : Server) (c : ℕ) (conn : Conn) : Server :=
  { s with slot := Function.update s.slot c (.live conn) }

/-- Write a queue. -/
def setQueue (s : Server) (k : Queue) (q : NodeList ℕ) : Server :=
  { s with queue := Function.update s.queue k q }

/-- Whether the client at an address can be used. -/
def isLive (s : Server) (c : ℕ) : Bool :=
  match s.slot c with
  | .live _ => true
  | _ => false

end Server

/-! ### Putting clients into the queues and taking them out -/

/-- `clientInstallWriteHandler` -/
def clientInstallWriteHandler (s : Server) (c : ℕ) : Except Stop Server :=
  (s.get c).bind fun conn =>
    if !conn.queued .write && (conn.replstate = none
        || (conn.replstate = some .online && !conn.replPutOnlineOnAck)) then
      .ok ((s.set c (conn.mark .write true)).setQueue .write (listAddNodeHead (s.queue .write) c))
    else .ok s

/-- `prepareClientToWrite`, and whether it returns `C_OK`. -/
def prepareClientToWrite (s : Server) (c : ℕ) : Except Stop (Server × Bool) :=
  (s.get c).bind fun conn =>
    if conn.flags.lua || conn.flags.module then .ok (s, true)
    else if !Networking.prepareClientToWrite conn.flags then .ok (s, false)
    else if !clientHasPendingReplies conn.out then
      (clientInstallWriteHandler s c).map fun s => (s, true)
    else .ok (s, true)

/-- `postponeClientRead`, and what it returns. -/
def postponeClientRead (s : Server) (c : ℕ) : Except Stop (Server × Bool) :=
  (s.get c).bind fun conn =>
    if s.ioThreadsActive && s.ioThreadsDoReads
        && !(conn.flags.master || conn.flags.slave || conn.queued .read) then
      .ok ((s.set c (conn.mark .read true)).setQueue .read
        (listAddNodeHead (s.queue .read) c), true)
    else .ok (s, false)

/-- `freeClientAsync` -/
def freeClientAsync (s : Server) (c : ℕ) : Except Stop Server :=
  (s.get c).bind fun conn =>
    if conn.queued .close || conn.flags.lua then .ok s
    else
      .ok ((s.set c (conn.mark .close true)).setQueue .close (listAddNodeTail (s.queue .close) c))

/-- Take a client out of a queue, if it is flagged. -/
def unqueue (k : Queue) (s : Server) (c : ℕ) : Except Stop Server :=
  (s.get c).bind fun conn =>
    if conn.queued k then
      match listSearchKey (s.queue k) c with
      | none => .error .assertion
      | some node =>
        match listDelNode (s.queue k) node with
        | none => .error .dangling
        | some q => .ok ((s.set c (conn.mark k false)).setQueue k q)
    else .ok s

/-- A client whose socket was closed. -/
def Conn.closed (conn : Conn) : Conn :=
  { conn with
    flags := { conn.flags with fd := -1 }
    events := .none
    noSocket := fun _ => rfl }

/-- `unlinkClient` -/
def unlinkClient (s : Server) (c : ℕ) : Except Stop Server :=
  (s.get c).bind fun conn =>
    let s := if conn.flags.fd ≠ -1 then s.set c conn.closed else s
    (unqueue .write s c).bind fun s => unqueue .read s c

/-- `replicationCacheMaster`, which keeps the client and unlinks it. -/
def replicationCacheMaster (s : Server) (c : ℕ) : Except Stop Server :=
  (unlinkClient s c).bind fun s =>
    (s.get c).map fun conn => s.set c (s.cacheMaster.apply conn)

/-- `freeClient`.  The flag `CLIENT_CLOSE_ASAP` goes with the client. -/
def freeClient (s : Server) (c : ℕ) : Except Stop Server :=
  (s.get c).bind fun conn =>
    if conn.isProtected then freeClientAsync s c
    else if s.master && conn.flags.master
        && !(conn.flags.closeAfterReply || conn.queued .close || conn.blocked) then
      replicationCacheMaster s c
    else
      (unlinkClient s c).bind fun s =>
        (unqueue .close s c).map fun s => { s with slot := Function.update s.slot c .freed }

/-- `protectClient` -/
def protectClient (s : Server) (c : ℕ) : Except Stop Server :=
  (s.get c).map fun conn =>
    s.set c { conn with
      isProtected := true
      events := aeDeleteFileEvent (aeDeleteFileEvent conn.events ⟨true, false, false⟩) ⟨false,
        true, false⟩ }

/-- `unprotectClient`; `fails` says whether the socket is not registered. -/
def unprotectClient (s : Server) (c : ℕ) (fails : Bool) : Except Stop Server :=
  (s.get c).bind fun conn =>
    if conn.isProtected then
      let s := s.set c { conn with
        isProtected := false
        events := if fails then conn.events else aeCreateFileEvent conn.events ⟨true,
          false, false⟩ }
      if clientHasPendingReplies conn.out then clientInstallWriteHandler s c else .ok s
    else .ok s

/-! ### Writing to the sockets -/

section

variable (netMaxWritesPerEvent : ℕ)

/-- `writeToClient`, and whether it returns `C_OK`.  A write that fails for good leaves
replies behind. -/
def writeToClient (s : Server) (c : ℕ) (ws : List WriteResult) (handlerInstalled : Bool) :
    Except Stop (Server × Bool) :=
  (s.get c).bind fun conn =>
    ((Networking.writeToClient netMaxWritesPerEvent conn.flags ws conn.out).mapError .output).bind
      fun x =>
      let s := s.set c { conn with
        out := x.1
        events := if handlerInstalled && !clientHasPendingReplies x.1 then
          aeDeleteFileEvent conn.events ⟨false, true, false⟩ else conn.events }
      if x.2.2 then (freeClientAsync s c).map fun s => (s, false) else .ok (s, true)

/-- `sendReplyToClient` -/
def sendReplyToClient (s : Server) (c : ℕ) (ws : List WriteResult) : Except Stop Server :=
  (writeToClient netMaxWritesPerEvent s c ws true).map Prod.fst

/-- The loop `while((ln = listNext(&li)))` over a queue, from the node at which the
iterator is.  `body` gets the node and the client. -/
def forEach {σ : Type} (queue : σ → NodeList ℕ) (body : σ → ℕ → ℕ → Except Stop σ) :
    ℕ → Option ℕ → σ → Except Stop σ
  | _, none, s => .ok s
  | 0, some _, _ => .error .endless
  | fuel + 1, some node, s =>
    match listNext (queue s) node with
    | none => .error .dangling
    | some (c, next) => (body s node c).bind (forEach queue body fuel next)

/-- A loop over a queue of the server. -/
def forQueue (k : Queue) (body : Server → ℕ → ℕ → Except Stop Server) (s : Server) :
    Except Stop Server :=
  forEach (fun s : Server => s.queue k) body (listLength (s.queue k)) (listRewind (s.queue k)) s

/-- Register `sendReplyToClient` if there are replies left, or else free the client. -/
def installWriteHandler (mask : Events) (fails : ℕ → Bool) (s : Server) (c : ℕ) :
    Except Stop Server :=
  (s.get c).bind fun conn =>
    if clientHasPendingReplies conn.out then
      if fails c then freeClientAsync s c
      else .ok (s.set c { conn with events := aeCreateFileEvent conn.events mask })
    else .ok s

/-- One turn of the loop of `handleClientsWithPendingWrites`. -/
def handlePendingWrite (ws : ℕ → List WriteResult) (fails : ℕ → Bool) (s : Server) (node c : ℕ) :
    Except Stop Server :=
  (s.get c).bind fun conn =>
    let s := s.set c (conn.mark .write false)
    match listDelNode (s.queue .write) node with
    | none => .error .dangling
    | some q =>
      let s := s.setQueue .write q
      if conn.isProtected then .ok s
      else
        (writeToClient netMaxWritesPerEvent s c (ws c) false).bind fun x =>
          if !x.2 then .ok x.1
          else installWriteHandler ⟨false, true, s.aofOn && s.aofFsyncAlways⟩ fails x.1 c

/-- `handleClientsWithPendingWrites`.  `ws` are the results of `write(2)` for each
client, and `fails` says where `aeCreateFileEvent` fails. -/
def handleClientsWithPendingWrites (ws : ℕ → List WriteResult) (fails : ℕ → Bool) (s : Server) :
    Except Stop Server :=
  forQueue .write (handlePendingWrite netMaxWritesPerEvent ws fails) s

/-- `flushSlavesOutputBuffers`, for the clients in `server.slaves`. -/
def flushSlavesOutputBuffers (slaves : List ℕ) (ws : ℕ → List WriteResult) (s : Server) :
    Except Stop Server :=
  slaves.foldlM (fun s c =>
    match s.slot c with
    | .live conn =>
      if conn.events.writable && conn.replstate = some .online &&
        clientHasPendingReplies conn.out then
        (writeToClient netMaxWritesPerEvent s c (ws c) false).map Prod.fst
      else .ok s
    | _ => .ok s) s

/-! ### Commands -/

/-- The output of a client after a call. -/
def replaceOutput (s : Server) (c : ℕ) (call : ReplyCall) : Except Stop Server :=
  (s.get c).bind fun conn =>
    ((replyCall netMaxWritesPerEvent conn.flags conn.out call).mapError .output).map fun x =>
      s.set c { conn with out := x.1 }

/-- A call on the output of a client, with what it does to the queues. -/
def reply (s : Server) (c : ℕ) : ReplyCall → Except Stop Server
  | .writeToClient ws => (writeToClient netMaxWritesPerEvent s c ws false).map Prod.fst
  -- the placeholder was put there after `prepareClientToWrite`
  | .setDeferredAggregateLen node length tag slack =>
    replaceOutput netMaxWritesPerEvent s c (.setDeferredAggregateLen node length tag slack)
  | call =>
    (prepareClientToWrite s c).bind fun x => replaceOutput netMaxWritesPerEvent x.1 c call

/-- `AddReplyFromClient` -/
def addReplyFromClient (s : Server) (dst src : ℕ) (slack : ℕ) : Except Stop Server :=
  (prepareClientToWrite s dst).bind fun x =>
    (x.1.get dst).bind fun d =>
      (x.1.get src).map fun r =>
        let y := Networking.addReplyFromClient d.flags d.out r.out slack
        (x.1.set dst { d with out := y.1 }).set src { r with out := y.2 }

/-- What the commands can do: calls of the functions above, whatever changes a client
in ways they only read, and the handlers that a re-entered event loop calls.  A client
that becomes a replica stays one. -/
inductive Act where
  | createClient (c : ℕ) (fd : ℤ)
  | createFakeClient (c : ℕ) (lua module : Bool)
  | setFlags (c : ℕ) (f : ReplyFlags) (blocked : Bool)
  | setReplstate (c : ℕ) (state : SlaveState) (putOnlineOnAck : Bool)
  | setServer (master aofOn aofFsyncAlways : Bool)
  | reply (c : ℕ) (call : ReplyCall)
  | addReplyFromClient (dst src slack : ℕ)
  | clientInstallWriteHandler (c : ℕ)
  | postponeClientRead (c : ℕ)
  | freeClientAsync (c : ℕ)
  | unlinkClient (c : ℕ)
  | freeClient (c : ℕ)
  | protectClient (c : ℕ)
  | unprotectClient (c : ℕ) (fails : Bool)
  | sendReplyToClient (c : ℕ) (ws : List WriteResult)
  | handleClientsWithPendingWrites (ws : ℕ → List WriteResult) (fails : ℕ → Bool)
  | flushSlavesOutputBuffers (slaves : List ℕ) (ws : ℕ → List WriteResult)

/-- A client of `createClient`; `fd` is -1 for one without a socket. -/
def Conn.fresh (f : ReplyFlags) (h : f.lua = true ∨ f.module = true → f.fd = -1) : Conn where
  flags := f
  out := .empty
  queued := fun _ => false
  pendingCommand := false
  isProtected := false
  blocked := false
  replstate := none
  replPutOnlineOnAck := false
  events := ⟨f.fd ≠ -1, false, false⟩
  noSocket := h

/-- The flags of a fresh client. -/
def freshFlags (fd : ℤ) : ReplyFlags :=
  ⟨false, false, false, false, false, false, false, false, fd⟩

/-- The flags that can change, and those of the kind of client. -/
def Conn.withFlags (conn : Conn) (f : ReplyFlags) (blocked : Bool) : Conn :=
  { conn with
    flags := { f with lua := conn.flags.lua, module := conn.flags.module, fd := conn.flags.fd }
    blocked := blocked
    noSocket := conn.noSocket }

/-- Do something with a client, if there is one. -/
def Server.onLive (s : Server) (c : ℕ) (f : Conn → Except Stop Server) : Except Stop Server :=
  match s.slot c with
  | .live conn => f conn
  | _ => .ok s

/-- Put a new client at an address that was never used. -/
def Server.create (s : Server) (c : ℕ) (conn : Conn) : Server :=
  match s.slot c with
  | .unused => s.set c conn
  | _ => s

/-- A command uses the clients it finds. -/
def act (s : Server) : Act → Except Stop Server
  | .createClient c fd => .ok (s.create c (.fresh (freshFlags fd) nofun))
  | .createFakeClient c lua module =>
    .ok (s.create c (.fresh { freshFlags (-1) with lua := lua, module := module } fun _ => rfl))
  | .setFlags c f blocked => s.onLive c fun conn => .ok (s.set c (conn.withFlags f blocked))
  | .setReplstate c state putOnlineOnAck =>
    s.onLive c fun conn =>
      .ok (s.set c { conn with replstate := some state, replPutOnlineOnAck := putOnlineOnAck })
  | .setServer master aofOn aofFsyncAlways =>
    .ok { s with master := master, aofOn := aofOn, aofFsyncAlways := aofFsyncAlways }
  | .reply c call => s.onLive c fun _ => reply netMaxWritesPerEvent s c call
  | .addReplyFromClient dst src slack =>
    s.onLive dst fun _ => s.onLive src fun _ => addReplyFromClient s dst src slack
  | .clientInstallWriteHandler c => s.onLive c fun _ => clientInstallWriteHandler s c
  | .postponeClientRead c => s.onLive c fun _ => (postponeClientRead s c).map Prod.fst
  | .freeClientAsync c => s.onLive c fun _ => freeClientAsync s c
  | .unlinkClient c => s.onLive c fun _ => unlinkClient s c
  | .freeClient c => s.onLive c fun _ => freeClient s c
  | .protectClient c => s.onLive c fun _ => protectClient s c
  | .unprotectClient c fails => s.onLive c fun _ => unprotectClient s c fails
  | .sendReplyToClient c ws => s.onLive c fun _ => sendReplyToClient netMaxWritesPerEvent s c ws
  | .handleClientsWithPendingWrites ws fails =>
    handleClientsWithPendingWrites netMaxWritesPerEvent ws fails s
  | .flushSlavesOutputBuffers slaves ws => flushSlavesOutputBuffers netMaxWritesPerEvent slaves ws s

/-- A command, or more than one. -/
def acts (s : Server) (l : List Act) : Except Stop Server := l.foldlM (act netMaxWritesPerEvent) s

/-! ### The I/O threads -/

/-- What a thread does to its client in `readQueryFromClient`, besides reading: it marks
a command that is complete, or it replies to a protocol error and marks the client, or
the connection was lost. -/
inductive ThreadAct where
  | pendingCommand
  | reply (call : ReplyCall)
  | closeAfterReply
  | freeClientAsync

def threadAct (s : Server) (c : ℕ) : ThreadAct → Except Stop Server
  | .pendingCommand => (s.get c).map fun conn => s.set c { conn with pendingCommand := true }
  | .reply call => reply netMaxWritesPerEvent s c call
  | .closeAfterReply => (s.get c).map fun conn =>
    s.set c (conn.withFlags { conn.flags with closeAfterReply := true } conn.blocked)
  | .freeClientAsync => freeClientAsync s c

/-- What happens in `handleClientsWithPendingReadsUsingThreads`: what the threads do, in
some order, and for each client what its pending command does and what the commands do
that are still in its query buffer. -/
structure Reads where
  threads : List (ℕ × ThreadAct)
  command : ℕ → List Act
  input : ℕ → List Act

/-- The threads serve the clients of the queue. -/
def threadReads (r : Reads) (s : Server) : Except Stop Server :=
  (r.threads.filter fun x => x.1 ∈ (s.queue .read).values).foldlM
    (fun s x => threadAct netMaxWritesPerEvent s x.1 x.2) s

/-- The second loop clears the flags of a client, and `processCommandAndResetClient`
executes its pending command. -/
def executePending (r : Reads) (s : Server) (c : ℕ) (conn : Conn) : Except Stop Server :=
  let s := s.set c { conn.mark .read false with pendingCommand := false }
  if conn.pendingCommand then acts netMaxWritesPerEvent s (r.command c) else .ok s

/-- One turn of the second loop.  The clients for which `processInputBufferAndReplicate`
was called are recorded. -/
def handlePendingRead (r : Reads) (x : Server × List ℕ) (_node c : ℕ) :
    Except Stop (Server × List ℕ) :=
  (x.1.get c).bind fun conn =>
    (executePending netMaxWritesPerEvent r x.1 c conn).bind fun s =>
      (s.get c).bind fun _ =>
        (acts netMaxWritesPerEvent s (r.input c)).map fun s => (s, x.2 ++ [c])

/-- The second loop. -/
def secondLoop (r : Reads) (s : Server) : Except Stop (Server × List ℕ) :=
  forEach (fun x : Server × List ℕ => x.1.queue .read) (handlePendingRead netMaxWritesPerEvent r)
    (listLength (s.queue .read)) (listRewind (s.queue .read)) (s, [])

/-- `handleClientsWithPendingReadsUsingThreads` -/
def handleClientsWithPendingReadsUsingThreads (r : Reads) (s : Server) : Except Stop Server :=
  if !s.ioThreadsActive || !s.ioThreadsDoReads then .ok s
  else if listLength (s.queue .read) = 0 then .ok s
  else
    (threadReads netMaxWritesPerEvent r s).bind fun s =>
      (secondLoop netMaxWritesPerEvent r s).map fun x =>
        x.1.setQueue .read (listEmpty (x.1.queue .read))

/-- An order in which the threads serve the clients that were dealt to them. -/
structure Schedule where
  order : List ℕ → List ℕ
  perm : ∀ l, (order l).Perm l

/-- With `n` threads, that work one after the other. -/
def Schedule.dealt (n : ℕ) (hn : 0 < n) : Schedule :=
  ⟨fun l => (List.range n).flatMap (Jobs.dealt n l), Jobs.flatMap_dealt_perm hn⟩

/-- `handleClientsWithPendingWritesUsingThreads`, when the threads are used. -/
def writeUsingThreads (ws : ℕ → List WriteResult) (fails : ℕ → Bool) (order : Schedule)
    (s : Server) :
    Except Stop Server :=
  (forQueue .write (fun s _ c => (s.get c).map fun conn => s.set c (conn.mark .write false)) s).bind
    fun s =>
  ((order.order (s.queue .write).values).foldlM (fun s c =>
    (writeToClient netMaxWritesPerEvent s c (ws c) false).map Prod.fst) s).bind fun s =>
  (forQueue .write (fun s _ c => installWriteHandler ⟨false, true, false⟩ fails s c) s).map fun s =>
  s.setQueue .write (listEmpty (s.queue .write))

/-- `stopThreadedIO` -/
def stopThreadedIO (r : Reads) (s : Server) : Except Stop Server :=
  (handleClientsWithPendingReadsUsingThreads netMaxWritesPerEvent r s).bind fun s =>
    if s.ioThreadsActive then .ok { s with ioThreadsActive := false } else .error .inactive

/-- `stopThreadedIOIfNeeded`, and what it returns. -/
def stopThreadedIOIfNeeded (r : Reads) (s : Server) : Except Stop (Server × Bool) :=
  if s.ioThreadsNum = 1 then .ok (s, true)
  else if listLength (s.queue .write) < s.ioThreadsNum * 2 then
    if s.ioThreadsActive then
      Except.map (fun s => (s, true)) <| stopThreadedIO netMaxWritesPerEvent r s
    else .ok (s, true)
  else .ok (s, false)

/-- `handleClientsWithPendingWritesUsingThreads` -/
def handleClientsWithPendingWritesUsingThreads (r : Reads) (ws : ℕ → List WriteResult)
    (fails : ℕ → Bool) (order : Schedule) (s : Server) : Except Stop Server :=
  if listLength (s.queue .write) = 0 then .ok s
  else
    (stopThreadedIOIfNeeded netMaxWritesPerEvent r s).bind fun x =>
      if x.2 then handleClientsWithPendingWrites netMaxWritesPerEvent ws fails x.1
      else
        writeUsingThreads netMaxWritesPerEvent ws fails order { x.1 with ioThreadsActive := true }

end

/-- One turn of the loop of `freeClientsInAsyncFreeQueue`. -/
def freeFirst (s : Server) (_ : ℕ) : Except Stop Server :=
  match listFirst (s.queue .close) with
  | none => .ok s
  | some (node, c) =>
    (s.get c).bind fun conn =>
      (freeClient (s.set c (conn.mark .close false)) c).bind fun s =>
        match listDelNode (s.queue .close) node with
        | none => .error .dangling
        | some q => .ok (s.setQueue .close q)

/-- `freeClientsInAsyncFreeQueue`.  A client that is still in the queue after a turn for
each node is protected and was put into the queue again, and so it will be for ever. -/
def freeClientsInAsyncFreeQueue (s : Server) : Except Stop Server :=
  ((List.range (listLength (s.queue .close))).foldlM freeFirst s).bind fun s =>
    if listLength (s.queue .close) = 0 then .ok s else .error .endless

/-! ### Runs -/

/-- What the event loop calls, in any order. -/
inductive Step where
  | act (a : Act)
  | handleClientsWithPendingReadsUsingThreads (r : Reads)
  | handleClientsWithPendingWritesUsingThreads (r : Reads) (ws : ℕ → List WriteResult)
      (fails : ℕ → Bool) (order : Schedule)
  | freeClientsInAsyncFreeQueue

section

variable (netMaxWritesPerEvent : ℕ)

def step (s : Server) : Step → Except Stop Server
  | .act a => act netMaxWritesPerEvent s a
  | .handleClientsWithPendingReadsUsingThreads r =>
    handleClientsWithPendingReadsUsingThreads netMaxWritesPerEvent r s
  | .handleClientsWithPendingWritesUsingThreads r ws fails order =>
    handleClientsWithPendingWritesUsingThreads netMaxWritesPerEvent r ws fails order s
  | .freeClientsInAsyncFreeQueue => freeClientsInAsyncFreeQueue s

/-- The server after a list of steps. -/
def run (s : Server) (steps : List Step) : Except Stop Server :=
  steps.foldlM (step netMaxWritesPerEvent) s

end

/-- A server without clients. -/
def Server.init (settings : Settings) : Server := ⟨settings, fun _ => .unused, fun _ => listCreate⟩

end ClientQueues
