/-
Reading requests from a client (networking.c, from `readQueryFromClient` down to
`processInlineBuffer` and `processMultibulkBuffer`).

A client accumulates what it reads in `querybuf`, of which the first `qb_pos`
bytes are parsed, and remembers in `reqtype`, `multibulklen`, `bulklen` and `argv`
how far it got in the current request.  `none` stands for a failed assertion or
an access outside of the query buffer or of `argv`.

What is outside of the file is collected in `Env`: `string2ll`, the execution of
commands, and the state of the server that the loop looks at.  A fresh client has
`qb_pos`, `querybuf`, `reqtype` and `flags` as `createClient` sets them;
`multibulklen`, `bulklen` and `argv` are not in the `struct client` of server.h any
more, so they are as `resetClient` leaves them, and the rest is zero or empty.
-/
import DecomposeRedis.SdsArgs

namespace Networking

open Sds

/-- `PROTO_IOBUF_LEN` -/
def protoIobufLen : ℕ := 16384

/-- `PROTO_INLINE_MAX_SIZE` -/
def protoInlineMaxSize : ℕ := 65536

/-- `PROTO_MBULK_BIG_ARG` -/
def protoMbulkBigArg : ℕ := 32768

/-- The bits of `flags` that matter here. -/
structure Flags where
  slave : Bool
  master : Bool
  multi : Bool
  blocked : Bool
  asking : Bool
  replySkip : Bool
  replySkipNext : Bool
  pendingRead : Bool
  pendingCommand : Bool
  closeAfterReply : Bool
  closeAsap : Bool
  deriving DecidableEq

/-- `c->flags = 0` -/
def Flags.none : Flags :=
  ⟨false, false, false, false, false, false, false, false, false, false, false⟩

/-- `reqtype`: unknown, `PROTO_REQ_INLINE` or `PROTO_REQ_MULTIBULK`. -/
inductive ReqType where
  | unknown
  | inline
  | multibulk
  deriving DecidableEq

/-- The part of a `client` that takes part in reading requests.  `argc` is the
length of `argv`, and `argvLen` the number of slots allocated for it. -/
structure Client where
  querybuf : Bytes
  qbPos : ℕ
  reqtype : ReqType
  multibulklen : ℕ
  bulklen : ℤ
  argv : List Bytes
  argvLen : ℕ
  flags : Flags
  pendingQuerybuf : Bytes
  readReploff : ℤ
  reploff : ℤ

/-- A client that has read nothing. -/
def freshClient : Client where
  querybuf := []
  qbPos := 0
  reqtype := .unknown
  multibulklen := 0
  bulklen := -1
  argv := []
  argvLen := 0
  flags := .none
  pendingQuerybuf := []
  readReploff := 0
  reploff := 0

/-! ### What is outside -/

/-- What `processCommand` leaves: whether it returned `C_OK`, the flags of the
client, whether `btype` is `BLOCKED_MODULE`, whether the command was ASKING, and
whether the client was freed.  `CLIENT_MASTER` and `CLIENT_PENDING_READ` are not
changed by commands. -/
structure Outcome where
  ok : Bool
  flags : Flags
  btypeModule : Bool
  asking : Bool
  freed : Bool

/-- The environment of the functions here, over a state `W` of the server. -/
structure Env (W : Type) where
  string2ll : Bytes → Option ℤ
  processCommand : W → Flags → List Bytes → W × Outcome
  processGopherRequest : W → List Bytes → W
  clientsArePaused : W → Bool
  luaTimedout : W → Bool
  gopherEnabled : Bool
  protoMaxBulkLen : ℤ
  clientMaxQuerybufLen : ℕ

/-- The protocol errors. -/
inductive ProtocolError where
  | tooBigInline
  | unbalancedQuotes
  | tooBigMbulkCount
  | invalidMultibulkLength
  | tooBigBulkCount
  | expectedDollar (got : UInt8)
  | invalidBulkLength

/-- The text sent to the client. -/
def ProtocolError.reply : ProtocolError → String
  | tooBigInline => "Protocol error: too big inline request"
  | unbalancedQuotes => "Protocol error: unbalanced quotes in request"
  | tooBigMbulkCount => "Protocol error: too big mbulk count string"
  | invalidMultibulkLength => "Protocol error: invalid multibulk length"
  | tooBigBulkCount => "Protocol error: too big bulk count string"
  | expectedDollar got =>
    "Protocol error: expected '$', got '" ++ toString (Char.ofNat got.toNat) ++ "'"
  | invalidBulkLength => "Protocol error: invalid bulk length"

/-- The text for the log of the server. -/
def ProtocolError.errstr : ProtocolError → String
  | tooBigInline => "too big inline request"
  | unbalancedQuotes => "unbalanced quotes in inline request"
  | tooBigMbulkCount => "too big mbulk count string"
  | invalidMultibulkLength => "invalid mbulk count"
  | tooBigBulkCount => "too big bulk count string"
  | expectedDollar _ => "expected $ but got something else"
  | invalidBulkLength => "invalid bulk length"

/-- What can be seen from outside, in the order in which it happens: an argument
vector handed to `processCommand`, a protocol error, a request served in Gopher
mode, and a part of the stream of a master that is passed on. -/
inductive Event where
  | command (argv : List Bytes)
  | protocolError (reply errstr : String)
  | gopher (argv : List Bytes)
  | feedSlaves (stream : Bytes)
  deriving DecidableEq

/-- The state of the server, a client, and what happened so far. -/
structure State (W : Type) where
  world : W
  client : Client
  log : List Event

/-! ### Parsing one request -/

/-- The position of the first `c`, if it comes before the first NUL. -/
def strchr : Bytes → UInt8 → Option ℕ
  | [], _ => none
  | b :: s, c => if b = c then some 0 else if b = 0 then none else (strchr s c).map (· + 1)

/-- The part of the query buffer that is not parsed; `qb_pos` must lie in it. -/
def Client.unparsed (c : Client) : Option Bytes :=
  if c.qbPos ≤ c.querybuf.length then some (c.querybuf.drop c.qbPos) else none

/-- What a parser returns: `C_OK`, or `C_ERR` because more has to be read or after
a protocol error. -/
inductive Progress where
  | ready
  | more
  | error (e : ProtocolError)

/-- `setProtocolError` -/
def setProtocolError (c : Client) : Client :=
  { c with flags := { c.flags with closeAfterReply := true } }

/-- The changes `resetClient` makes to the flags, given whether the previous
command was ASKING. -/
def Flags.reset (f : Flags) (prevAsking : Bool) : Flags :=
  { f with
    asking := f.asking && (f.multi || prevAsking)
    replySkip := f.replySkipNext
    replySkipNext := false }

/-- `resetClient` -/
def resetClient (prevAsking : Bool) (c : Client) : Client :=
  { c with
    argv := []
    reqtype := .unknown
    multibulklen := 0
    bulklen := -1
    flags := c.flags.reset prevAsking }

/-- `processInlineBuffer` -/
def processInlineBuffer (c : Client) : Option (Progress × Client) :=
  c.unparsed.map fun rest =>
    match strchr rest 10 with
    | none =>
      if protoInlineMaxSize < rest.length then (.error .tooBigInline, setProtocolError c)
      else (.more, c)
    | some newline =>
      -- Handle the \r\n case.
      let cr := newline ≠ 0 && rest[newline - 1]? = some 13
      let querylen := if cr then newline - 1 else newline
      let linefeedChars := if cr then 2 else 1
      match sdssplitargs (rest.take querylen) with
      | none => (.error .unbalancedQuotes, setProtocolError c)
      | some argv =>
        (.ready, { c with
          qbPos := c.qbPos + (querylen + linefeedChars)
          argvLen := if argv = [] then c.argvLen else argv.length
          argv := argv.filter (· ≠ []) })

/-- The search for the end of a line in the multibulk protocol: the position of the
`\r`, if the byte after it has arrived too.  The unsigned difference
`sdslen-qb_pos-2` is compared as a signed number. -/
def findLine (rest : Bytes) (tooBig : ProtocolError) : Progress ⊕ ℕ :=
  match strchr rest 13 with
  | none => .inl (if protoInlineMaxSize < rest.length then .error tooBig else .more)
  | some newline =>
    if (rest.length : ℤ) - 2 < newline then .inl .more else .inr newline

/-- A parser stopped; a protocol error marks the client. -/
def Client.stopped (c : Client) (p : Progress) : Progress × Client :=
  match p with
  | .error e => (.error e, setProtocolError c)
  | p => (p, c)

/-- The first part of `processMultibulkBuffer`, for an unknown multibulk length. -/
def readMultibulkLen {W : Type} (env : Env W) (c : Client) : Option (Progress × Client) :=
  if c.argv ≠ [] then none
  else
    c.unparsed.bind fun rest =>
      match findLine rest .tooBigMbulkCount with
      | .inl p => some (c.stopped p)
      | .inr newline =>
        if rest.head? ≠ some 42 then none
        else
          match env.string2ll ((rest.drop 1).take (newline - 1)) with
          | none => some (c.stopped (.error .invalidMultibulkLength))
          | some ll =>
            if 1048576 < ll then some (c.stopped (.error .invalidMultibulkLength))
            else
              let c := { c with qbPos := c.qbPos + (newline + 2) }
              if ll ≤ 0 then some (.ready, c)
              else some (.ready, { c with multibulklen := ll.toNat, argvLen := ll.toNat })

/-- Read the bulk length, if it is unknown. -/
def readBulkLen {W : Type} (env : Env W) (c : Client) : Option (Progress × Client) :=
  if c.bulklen ≠ -1 then some (.ready, c)
  else
    c.unparsed.map fun rest =>
      match findLine rest .tooBigBulkCount with
      | .inl p => c.stopped p
      | .inr newline =>
        if rest.head? ≠ some 36 then c.stopped (.error (.expectedDollar (rest.headD 0)))
        else
          match env.string2ll ((rest.drop 1).take (newline - 1)) with
          | none => c.stopped (.error .invalidBulkLength)
          | some ll =>
            if ll < 0 ∨ env.protoMaxBulkLen < ll then c.stopped (.error .invalidBulkLength)
            else
              let c := { c with qbPos := c.qbPos + (newline + 2) }
              -- Make it likely that a large argument starts at the buffer boundary.
              let c :=
                if (protoMbulkBigArg : ℤ) ≤ ll ∧
                    ((c.querybuf.length - c.qbPos : ℕ) : ℤ) ≤ ll + 2 then
                  { c with querybuf := sdsrange c.querybuf c.qbPos (-1), qbPos := 0 }
                else c
              (.ready, { c with bulklen := ll })

/-- `c->argv[c->argc++] = arg`, and get ready for the next argument. -/
def Client.addArg (c : Client) (arg : Bytes) : Client :=
  { c with argv := c.argv ++ [arg], bulklen := -1, multibulklen := c.multibulklen - 1 }

/-- Read the bulk argument.  If the buffer holds just this argument it is handed
over as a whole, without the trailing `\r\n`. -/
def readBulk (c : Client) : Option (Progress × Client) :=
  c.unparsed.bind fun rest =>
    if (rest.length : ℤ) < c.bulklen + 2 then some (.more, c)
    else if c.argvLen ≤ c.argv.length then none
    else if c.qbPos = 0 ∧ (protoMbulkBigArg : ℤ) ≤ c.bulklen ∧
        (c.querybuf.length : ℤ) = c.bulklen + 2 then
      some (.ready, { c.addArg (c.querybuf.take (c.querybuf.length - 2)) with querybuf := [] })
    else
      some (.ready, { c.addArg (rest.take c.bulklen.toNat) with
        qbPos := c.qbPos + (c.bulklen.toNat + 2) })

/-- The loop over the bulk arguments; each turn reads one of them. -/
def bulkLoop {W : Type} (env : Env W) : ℕ → Client → Option (Progress × Client)
  | 0, c => some (.ready, c)
  | multibulklen + 1, c =>
    (readBulkLen env c).bind fun x =>
      match x.1 with
      | .ready =>
        (readBulk x.2).bind fun y =>
          match y.1 with
          | .ready => bulkLoop env multibulklen y.2
          | p => some (p, y.2)
      | p => some (p, x.2)

/-- The second part of `processMultibulkBuffer`, behind the assertion that there is
an argument to read. -/
def readBulks {W : Type} (env : Env W) (c : Client) : Option (Progress × Client) :=
  if c.multibulklen = 0 then none else bulkLoop env c.multibulklen c

/-- `processMultibulkBuffer` -/
def processMultibulkBuffer {W : Type} (env : Env W) (c : Client) : Option (Progress × Client) :=
  if c.multibulklen = 0 then
    (readMultibulkLen env c).bind fun x =>
      match x.1 with
      | .ready => if x.2.multibulklen = 0 then some (.ready, x.2) else readBulks env x.2
      | p => some (p, x.2)
  else readBulks env c

/-! ### The loop over the requests -/

section

variable {W : Type} (env : Env W)

/-- The tests at the head of the loop of `processInputBuffer`. -/
def halted (w : W) (f : Flags) : Bool :=
  (!f.slave && env.clientsArePaused w) || f.blocked || f.pendingCommand ||
    (env.luaTimedout w && f.master) || f.closeAfterReply || f.closeAsap

/-- The flags after a command; only the replication and the I/O threads set the
other two. -/
def Flags.keeping (f old : Flags) : Flags :=
  { f with master := old.master, pendingRead := old.pendingRead }

/-- The client after `processCommand`. -/
def Client.afterCommand (c : Client) (o : Outcome) : Client :=
  let c := { c with flags := o.flags.keeping c.flags }
  if o.ok then
    let c :=
      { c with
        reploff :=
          if c.flags.master && !c.flags.multi then c.readReploff - c.querybuf.length + c.qbPos
          else c.reploff }
    if !(c.flags.blocked && o.btypeModule) then resetClient o.asking c else c
  else c

/-- `processCommandAndResetClient`, and whether the client was freed. -/
def processCommandAndResetClient (st : State W) : State W × Bool :=
  let x := env.processCommand st.world st.client.flags st.client.argv
  (⟨x.1, st.client.afterCommand x.2, st.log ++ [.command st.client.argv]⟩, x.2.freed)

/-- How a turn of the loop ends: with the next one, by leaving the loop, or by
returning at once because the client is gone. -/
inductive Turn (W : Type) where
  | again (st : State W)
  | stop (st : State W)
  | gone (st : State W)

/-- The end of a turn, with a request in `argv`. -/
def runRequest (st : State W) : Turn W :=
  if st.client.argv = [] then .again { st with client := resetClient false st.client }
  else if st.client.flags.pendingRead then
    .stop { st with
      client := { st.client with flags := { st.client.flags with pendingCommand := true } } }
  else
    let x := processCommandAndResetClient env st
    if x.2 then .gone x.1 else .again x.1

/-- Leave the loop because of what a parser returned. -/
def stopTurn (st : State W) (p : Progress) : Turn W :=
  match p with
  | .error e => .stop { st with log := st.log ++ [.protocolError e.reply e.errstr] }
  | _ => .stop st

/-- The request is for Gopher mode. -/
def isGopher (argv : List Bytes) : Bool :=
  env.gopherEnabled &&
    match argv with
    | [] => true
    | [arg] => arg.head? = some 47
    | _ => false

/-- Serve a request in Gopher mode, and close the client. -/
def serveGopher (st : State W) : State W :=
  let c := resetClient false st.client
  { world := env.processGopherRequest st.world st.client.argv
    client := { c with flags := { c.flags with closeAfterReply := true } }
    log := st.log ++ [.gopher st.client.argv] }

/-- Determine the request type, when it is unknown. -/
def Client.setReqtype (c : Client) (rest : Bytes) : Client :=
  if c.reqtype = .unknown then
    { c with reqtype := if rest.head? = some 42 then .multibulk else .inline }
  else c

/-- A turn of the loop of `processInputBuffer`. -/
def inputTurn (st : State W) : Option (Turn W) :=
  if halted env st.world st.client.flags then some (.stop st)
  else
    st.client.unparsed.bind fun rest =>
      let c := st.client.setReqtype rest
      match c.reqtype with
      | .unknown => none
      | .inline =>
        (processInlineBuffer c).map fun x =>
          let st := { st with client := x.2 }
          match x.1 with
          | .ready =>
            if isGopher env x.2.argv then .stop (serveGopher env st) else runRequest env st
          | p => stopTurn st p
      | .multibulk =>
        (processMultibulkBuffer env c).map fun x =>
          let st := { st with client := x.2 }
          match x.1 with
          | .ready => runRequest env st
          | p => stopTurn st p

/-- The loop of `processInputBuffer`, and whether the client is still there.  Every
turn that is followed by another one consumes a byte, so the number of unparsed
bytes bounds the number of turns. -/
def inputLoop : ℕ → State W → Option (State W × Bool)
  | fuel, st =>
    if st.client.querybuf.length ≤ st.client.qbPos then some (st, true)
    else
      match fuel with
      | 0 => none
      | fuel + 1 =>
        (inputTurn env st).bind fun
          | .again st => inputLoop fuel st
          | .stop st => some (st, true)
          | .gone st => some (st, false)

/-- Trim the query buffer to `qb_pos`. -/
def Client.trim (c : Client) : Client :=
  if c.qbPos ≠ 0 then { c with querybuf := sdsrange c.querybuf c.qbPos (-1), qbPos := 0 } else c

/-- `processInputBuffer` -/
def processInputBuffer (st : State W) : Option (State W) :=
  (inputLoop env (st.client.querybuf.length - st.client.qbPos) st).map fun x =>
    if x.2 then { x.1 with client := x.1.client.trim } else x.1

/-- `processInputBufferAndReplicate`.  More than `pending_querybuf` holds cannot be
passed on. -/
def processInputBufferAndReplicate (st : State W) : Option (State W) :=
  if !st.client.flags.master then processInputBuffer env st
  else
    (processInputBuffer env st).bind fun st' =>
      let c := st'.client
      let applied := c.reploff - st.client.reploff
      if applied = 0 then some st'
      else if applied < 0 ∨ (c.pendingQuerybuf.length : ℤ) < applied then none
      else some { st' with
        client := { c with pendingQuerybuf := sdsrange c.pendingQuerybuf applied (-1) }
        log := st'.log ++ [.feedSlaves (c.pendingQuerybuf.take applied.toNat)] }

/-! ### Reading from the socket -/

/-- What `read(2)` returns; no bytes mean that the connection was closed. -/
inductive ReadResult where
  | bytes (data : Bytes)
  | eagain
  | error

/-- `readlen` of `readQueryFromClient`: not beyond the end of a large argument. -/
def readlen (c : Client) : ℕ :=
  let remaining := c.bulklen + 2 - c.querybuf.length
  if c.reqtype = .multibulk ∧ c.multibulklen ≠ 0 ∧ c.bulklen ≠ -1 ∧
      (protoMbulkBigArg : ℤ) ≤ c.bulklen ∧ 0 < remaining ∧ remaining < protoIobufLen then
    remaining.toNat
  else protoIobufLen

/-- `freeClientAsync`, as far as the client itself is concerned. -/
def freeClientAsync (c : Client) : Client :=
  { c with flags := { c.flags with closeAsap := true } }

/-- `readQueryFromClient`, when the read is not left to an I/O thread. -/
def readQueryFromClient (st : State W) (r : ReadResult) : Option (State W) :=
  match r with
  | .eagain => some st
  | .error => some { st with client := freeClientAsync st.client }
  | .bytes [] => some { st with client := freeClientAsync st.client }
  | .bytes data =>
    let c := st.client
    let c :=
      if c.flags.master then
        { c with
          pendingQuerybuf := c.pendingQuerybuf ++ data
          readReploff := c.readReploff + data.length }
      else c
    let c := { c with querybuf := c.querybuf ++ data }
    if env.clientMaxQuerybufLen < c.querybuf.length then
      some { st with client := freeClientAsync c }
    else processInputBufferAndReplicate env { st with client := c }

/-- What `handleClientsWithPendingReadsUsingThreads` does for a client, after an I/O
thread has read and parsed for it.  It goes on with the client in any case, which is
an access to freed memory if the command freed it. -/
def handlePendingRead (st : State W) : Option (State W) :=
  let c := { st.client with flags := { st.client.flags with pendingRead := false } }
  if c.flags.pendingCommand then
    let c := { c with flags := { c.flags with pendingCommand := false } }
    let x := processCommandAndResetClient env { st with client := c }
    if x.2 then none else processInputBufferAndReplicate env x.1
  else processInputBufferAndReplicate env { st with client := c }

end

end Networking
