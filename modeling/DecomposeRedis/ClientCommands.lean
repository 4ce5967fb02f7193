/-
The commands CLIENT and HELLO (networking.c, `clientCommand` and `helloCommand`).

A command gets the client that called it, its arguments and what the server knows, and
says what is replied (`CommandOutcome`).  The objects, the ACL and the modules are not in the
files at hand: `Helpers` has what they do, and `Helpers.Sound` that they queue one value
where they queue something.

* `Answered` and `Silent`: what is queued is one value of the version of RESP that the
  client has after the command, or nothing at all.
* `clearsName` and `HelloFits`: when a name is set to the empty string the reply has a
  second OK, and the map of HELLO has one element too few in sentinel mode.
* `one_request_one_reply_iff`: all other requests have one reply.
-/
import DecomposeRedis.OutputLimit
import DecomposeRedis.ReplyValues

namespace Networking

open Sds Holes
open Resp hiding Bytes

/-! ### Strings -/

/-- A literal of the source. -/
def text (s : String) : Bytes := s.toUTF8.data.toList

/-- The bytes before the terminator. -/
def cstring (s : Bytes) : Bytes := s.takeWhile (· ≠ 0)

def tolower (b : UInt8) : UInt8 := if 65 ≤ b ∧ b ≤ 90 then b + 32 else b

def toupper (b : UInt8) : UInt8 := if 97 ≤ b ∧ b ≤ 122 then b - 32 else b

/-- Whether `strcasecmp` of a string and a literal is 0. -/
def strcaseeq (s : Bytes) (literal : String) : Bool :=
  (cstring s).map tolower = (text literal).map tolower

/-- A `long long` as `uint64_t` -/
def uint64 (n : ℤ) : ℕ := (n % 2 ^ 64).toNat

/-! ### More reply functions -/

namespace Emit

variable (sh : Shared) (f : ReplyFlags) (slack : ℕ → ℕ) (v : Version)

/-- One function after the other. -/
def seq : List Emit → Emit
  | [] => skip
  | a :: as => a.andThen (seq as)

/-- `addReplyError` -/
def addReplyError (err : String) : Emit := addReplyErrorLength f slack (text err)

/-- `addReplyStatusLength` -/
def addReplyStatusLength (s : Bytes) : Emit :=
  (addReplyProto f slack [43]).andThen <| (addReplyProto f slack s).andThen
    (addReplyProto f slack [13, 10])

/-- `addReplyStatus` -/
def addReplyStatus (status : String) : Emit := addReplyStatusLength f slack (text status)

/-- `addReplyHelp`; `cmd` is the first argument. -/
def addReplyHelp (cmd : Bytes) (help : List String) : Emit :=
  deferred f slack v (help.length + 1) .array <| seq <|
    addReplyStatusLength f slack
      ((cstring cmd).map toupper ++ text " <subcommand> arg arg ... arg. Subcommands are:") ::
    help.map (addReplyStatus f slack)

/-- `addReplyBulkLen` -/
def addReplyBulkLen (len : ℕ) : Emit :=
  if len < sh.bulkhdrLen then addReply f slack (sh.bulkhdr len)
  else addReplyLongLongWithPrefix sh f slack len 36

/-- `addReplyBulk` -/
def addReplyBulk (s : Bytes) : Emit :=
  (addReplyBulkLen sh f slack s.length).andThen <| (addReply f slack s).andThen
    (addReply f slack sh.crlf)

/-- `addReplyBulkCString`, of a string that is there -/
def addReplyBulkCString (s : Bytes) : Emit := addReplyBulkCBuffer sh f slack (cstring s)

end Emit

/-! ### The commands -/

/-- What the commands use of the client that calls them. -/
structure Caller where
  flags : ReplyFlags
  replySkipNext : Bool
  resp : Version
  name : Option Bytes
  id : ℕ
  authenticated : Bool
  tracking : Bool
  trackingRedirection : ℤ
  /-- The name of `c->user` -/
  user : Bytes

/-- What the commands use of a client in `server.clients`. -/
structure Peer where
  id : ℕ
  peerId : Bytes
  type : ClientType
  blocked : Bool
  isCaller : Bool

/-- What the commands use of the server. -/
structure ServerInfo where
  sentinelMode : Bool
  clusterEnabled : Bool
  masterhost : Bool
  redisVersion : Bytes
  clients : List Peer
  getAllClientsInfoString : Option ClientType → Bytes

/-- What is not in the files at hand.  The functions `…OrReply` queue `longLongError` or
`timeoutError` when there is no number. -/
structure Helpers where
  ok : Bytes
  syntaxerr : Bytes
  getLongLongFromObject : Bytes → Option ℤ
  longLongError : Emit
  getTimeoutFromObject : Bytes → Option ℤ
  timeoutError : Emit
  replyToBlockedClientTimedOut : Emit
  aclAuthenticateUser : Bytes → Bytes → Bool
  addReplyLoadedModules : Version → Emit
  enableTracking : Caller → ℤ → Caller
  disableTracking : Caller → Caller

/-- What is done to other clients. -/
inductive Effect where
  | freeClient (id : ℕ)
  | unblockClient (id : ℕ) (error : Bool)
  | pauseClients (duration : ℤ)

/-- The client after a command, what was queued for it, and what was done to others. -/
structure CommandOutcome where
  caller : Caller
  emit : Emit
  effects : List Effect

/-- `getClientTypeByName` -/
def getClientTypeByName (name : Bytes) : Option ClientType :=
  if strcaseeq name "normal" then some .normal
  else if strcaseeq name "slave" then some .slave
  else if strcaseeq name "replica" then some .slave
  else if strcaseeq name "pubsub" then some .pubsub
  else if strcaseeq name "master" then some .master
  else none

/-- `lookupClientByID` -/
def lookupClientByID (clients : List Peer) (id : ℤ) : Option Peer :=
  clients.find? fun p => p.id = uint64 id

/-- The filter of CLIENT KILL. -/
structure KillFilter where
  addr : Option Bytes
  type : Option ClientType
  id : ℕ
  skipme : Bool

/-- Whether a client is to be killed. -/
def KillFilter.selects (filter : KillFilter) (p : Peer) : Bool :=
  (filter.addr.all fun addr => cstring p.peerId = cstring addr) &&
    (filter.type.all fun type => p.type = type) &&
    (filter.id = 0 || p.id = filter.id) && !(p.isCaller && filter.skipme)

/-- The lines of CLIENT HELP. -/
def clientHelp : List String :=
  ["ID                     -- Return the ID of the current connection.",
    "GETNAME                -- Return the name of the current connection.",
    "KILL <ip:port>         -- Kill connection made from <ip:port>.",
    "KILL <option> <value> [option value ...] -- Kill connections. Options are:",
    "     ADDR <ip:port>                      -- Kill connection made from <ip:port>",
    "     TYPE (normal|master|replica|pubsub) -- Kill connections by type.",
    "     SKIPME (yes|no)   -- Skip killing current connection (default: yes).",
    "LIST [options ...]     -- Return information about client connections. Options:",
    "     TYPE (normal|master|replica|pubsub) -- Return clients of specified type.",
    "PAUSE <timeout>        -- Suspend all Redis clients for <timout> milliseconds.",
    "REPLY (on|off|skip)    -- Control the replies sent to the current connection.",
    "SETNAME <name>         -- Assign the name <name> to the current connection.",
    "UNBLOCK <clientid> [TIMEOUT|ERROR] -- Unblock the specified blocked client.",
    "TRACKING (on|off) [REDIRECT <id>] -- Enable client keys tracking for client side caching.",
    "GETREDIR               -- Return the client ID we are redirecting to when tracking is enabled."
    ]

section

variable (sh : Shared) (h : Helpers) (srv : ServerInfo) (slack : ℕ → ℕ)

/-- `clientSetNameOrReply`, and whether it returns `C_OK` -/
def clientSetNameOrReply (c : Caller) (name : Bytes) : Caller × Emit × Bool :=
  if name = [] then ({ c with name := none }, .addReply c.flags slack h.ok, true)
  else if ∀ b ∈ name, 33 ≤ b ∧ b ≤ 126 then ({ c with name := some name }, .skip, true)
  else
    (c, .addReplyError c.flags slack
      "Client names cannot contain spaces, newlines or special characters.", false)

/-- CLIENT LIST -/
def clientList (c : Caller) (args : List Bytes) : CommandOutcome :=
  let list := fun type => ⟨c, .addReplyBulkCBuffer sh c.flags slack
    (srv.getAllClientsInfoString type), []⟩
  if args.length = 2 ∧ strcaseeq (args.getD 0 []) "type" then
    match getClientTypeByName (args.getD 1 []) with
    | none =>
      ⟨c, .addReplyErrorFormat c.flags slack
        (text "Unknown client type '" ++ cstring (args.getD 1 []) ++ text "'"), []⟩
    | some type => list (some type)
  else if args.length ≠ 0 then ⟨c, .addReply c.flags slack h.syntaxerr, []⟩
  else list none

/-- CLIENT REPLY ON|OFF|SKIP -/
def clientReply (c : Caller) (mode : Bytes) : CommandOutcome :=
  if strcaseeq mode "on" then
    let c := { c with flags := { c.flags with replySkip := false, replyOff := false } }
    ⟨c, .addReply c.flags slack h.ok, []⟩
  else if strcaseeq mode "off" then
    ⟨{ c with flags := { c.flags with replyOff := true } }, .skip, []⟩
  else if strcaseeq mode "skip" then
    ⟨if c.flags.replyOff then c else { c with replySkipNext := true }, .skip, []⟩
  else ⟨c, .addReply c.flags slack h.syntaxerr, []⟩

/-- The options of CLIENT KILL: the filter, or the error that was queued. -/
def killOptions (c : Caller) : KillFilter → List Bytes → Emit ⊕ KillFilter
  | filter, [] => .inr filter
  | _, [_] => .inl (.addReply c.flags slack h.syntaxerr)
  | filter, opt :: value :: args =>
    if strcaseeq opt "id" then
      match h.getLongLongFromObject value with
      | none => .inl h.longLongError
      | some tmp => killOptions c { filter with id := uint64 tmp } args
    else if strcaseeq opt "type" then
      match getClientTypeByName value with
      | none =>
        .inl (.addReplyErrorFormat c.flags slack (text "Unknown client type '" ++
          cstring value ++ text "'"))
      | some type => killOptions c { filter with type := some type } args
    else if strcaseeq opt "addr" then killOptions c { filter with addr := some value } args
    else if strcaseeq opt "skipme" then
      if strcaseeq value "yes" then killOptions c { filter with skipme := true } args
      else if strcaseeq value "no" then killOptions c { filter with skipme := false } args
      else .inl (.addReply c.flags slack h.syntaxerr)
    else .inl (.addReply c.flags slack h.syntaxerr)

/-- CLIENT KILL, with one argument or with options -/
def clientKill (c : Caller) (args : List Bytes) : CommandOutcome :=
  let options : Emit ⊕ KillFilter :=
    if args.length = 1 then .inr ⟨some (args.getD 0 []), none, 0, false⟩
    else if 1 < args.length then killOptions h slack c ⟨none, none, 0, true⟩ args
    else .inl (.addReply c.flags slack h.syntaxerr)
  match options with
  | .inl error => ⟨c, error, []⟩
  | .inr filter =>
    let killed := srv.clients.filter filter.selects
    let reply : Emit :=
      if args.length = 1 then
        if killed.length = 0 then .addReplyError c.flags slack "No such client"
        else .addReply c.flags slack h.ok
      else .addReplyLongLong sh c.flags slack killed.length
    -- the flag is set after the reply was queued
    ⟨{ c with flags := { c.flags with
      closeAfterReply := c.flags.closeAfterReply || killed.any (·.isCaller) } }, reply,
      (killed.filter fun p => !p.isCaller).map fun p => .freeClient p.id⟩

/-- CLIENT UNBLOCK -/
def clientUnblock (c : Caller) (args : List Bytes) : CommandOutcome :=
  if args.length = 2 ∧ ¬ strcaseeq (args.getD 1 []) "timeout" ∧
    ¬ strcaseeq (args.getD 1 []) "error" then
    ⟨c, .addReplyError c.flags slack "CLIENT UNBLOCK reason should be TIMEOUT or ERROR", []⟩
  else
    let unblockError : Bool := args.length = 2 && strcaseeq (args.getD 1 []) "error"
    match h.getLongLongFromObject (args.getD 0 []) with
    | none => ⟨c, h.longLongError, []⟩
    | some id =>
      match (lookupClientByID srv.clients id).filter (·.blocked) with
      | some target =>
        let toTarget : Emit :=
          if unblockError then .addReplyError c.flags slack
            "-UNBLOCKED client unblocked via CLIENT UNBLOCK"
          else h.replyToBlockedClientTimedOut
        ⟨c, (if target.isCaller then toTarget else Emit.skip).andThen
          (.addReply c.flags slack sh.cone),
          [.unblockClient target.id unblockError]⟩
      | none => ⟨c, .addReply c.flags slack sh.czero, []⟩

/-- CLIENT SETNAME -/
def clientSetname (c : Caller) (name : Bytes) : CommandOutcome :=
  let x := clientSetNameOrReply h slack c name
  ⟨x.1, if x.2.2 then x.2.1.andThen (.addReply c.flags slack h.ok) else x.2.1, []⟩

/-- CLIENT GETNAME -/
def clientGetname (c : Caller) : CommandOutcome :=
  match c.name with
  | some name => ⟨c, .addReplyBulk sh c.flags slack name, []⟩
  | none => ⟨c, .addReplyNull c.flags slack c.resp, []⟩

/-- CLIENT PAUSE -/
def clientPause (c : Caller) (timeout : Bytes) : CommandOutcome :=
  match h.getTimeoutFromObject timeout with
  | none => ⟨c, h.timeoutError, []⟩
  | some duration => ⟨c, .addReply c.flags slack h.ok, [.pauseClients duration]⟩

/-- CLIENT TRACKING, when its option was read -/
def switchTracking (c : Caller) (mode : Bytes) (redir : ℤ) : CommandOutcome :=
  if strcaseeq mode "on" then
    let c := h.enableTracking c redir
    ⟨c, .addReply c.flags slack h.ok, []⟩
  else if strcaseeq mode "off" then
    let c := h.disableTracking c
    ⟨c, .addReply c.flags slack h.ok, []⟩
  else ⟨c, .addReply c.flags slack h.syntaxerr, []⟩

/-- CLIENT TRACKING -/
def clientTracking (c : Caller) (args : List Bytes) : CommandOutcome :=
  if args.length = 3 then
    if ¬ strcaseeq (args.getD 1 []) "redirect" then ⟨c, .addReply c.flags slack h.syntaxerr, []⟩
    else
      match h.getLongLongFromObject (args.getD 2 []) with
      | none => ⟨c, h.longLongError, []⟩
      | some redir =>
        if (lookupClientByID srv.clients redir).isNone then
          ⟨c, .addReplyError c.flags slack "The client ID you want redirect to does not exist", []⟩
        else switchTracking h slack c (args.getD 0 []) redir
  else switchTracking h slack c (args.getD 0 []) 0

/-- `clientCommand`; `args` are the arguments from `argv[2]` on. -/
def clientCommand (c : Caller) (cmd sub : Bytes) (args : List Bytes) : CommandOutcome :=
  if args.length = 0 ∧ strcaseeq sub "help" then
    ⟨c, .addReplyHelp c.flags slack c.resp cmd clientHelp, []⟩
  else if strcaseeq sub "id" ∧ args.length = 0 then ⟨c, .addReplyLongLong sh c.flags slack c.id, []⟩
  else if strcaseeq sub "list" then clientList sh h srv slack c args
  else if strcaseeq sub "reply" ∧ args.length = 1 then clientReply h slack c (args.getD 0 [])
  else if strcaseeq sub "kill" then clientKill sh h srv slack c args
  else if strcaseeq sub "unblock" ∧ (args.length = 1 ∨ args.length = 2) then
    clientUnblock sh h srv slack c args
  else if strcaseeq sub "setname" ∧ args.length = 1 then clientSetname h slack c (args.getD 0 [])
  else if strcaseeq sub "getname" ∧ args.length = 0 then clientGetname sh slack c
  else if strcaseeq sub "pause" ∧ args.length = 1 then clientPause h slack c (args.getD 0 [])
  else if strcaseeq sub "tracking" ∧ (args.length = 1 ∨ args.length = 3) then
    clientTracking h srv slack c args
  else if strcaseeq sub "getredir" ∧ args.length = 0 then
    ⟨c, .addReplyLongLong sh c.flags slack (if c.tracking then c.trackingRedirection else -1), []⟩
  else
    ⟨c, .addReplyErrorFormat c.flags slack
      (text "Unknown subcommand or wrong number of arguments for '" ++ cstring sub ++
        text "'. Try CLIENT HELP"), []⟩

/-- The options of HELLO, and whether the loop over them ended without an error. -/
def helloOptions : Caller → List Bytes → Caller × Emit × Bool
  | c, [] => (c, .skip, true)
  | c, opt :: args =>
    match strcaseeq opt "AUTH", strcaseeq opt "SETNAME", args with
    | true, _, user :: password :: args =>
      if h.aclAuthenticateUser user password then
        helloOptions { c with authenticated := true, user := user } args
      else (c, .addReplyError c.flags slack "-WRONGPASS invalid username-password pair", false)
    | _, true, name :: args =>
      let x := clientSetNameOrReply h slack c name
      if x.2.2 then
        let y := helloOptions x.1 args
        (y.1, x.2.1.andThen y.2.1, y.2.2)
      else x
    | _, _, _ =>
      (c, .addReplyErrorFormat c.flags slack (text "Syntax error in HELLO option '" ++
        cstring opt ++ text "'"), false)

/-- The elements of the map of HELLO. -/
def helloElements (c : Caller) : List Emit :=
  let bulk := fun s => Emit.addReplyBulkCString sh c.flags slack (text s)
  [bulk "server", bulk "redis",
    bulk "version", .addReplyBulkCString sh c.flags slack srv.redisVersion,
    bulk "proto", .addReplyLongLong sh c.flags slack 3,
    bulk "id", .addReplyLongLong sh c.flags slack c.id,
    bulk "mode"] ++
  (if srv.sentinelMode then [bulk "sentinel"] else []) ++
  -- this is not in the `else` of the line above
  (if srv.clusterEnabled then [bulk "cluster"] else [bulk "standalone"]) ++
  (if !srv.sentinelMode then [bulk "role", bulk (if srv.masterhost then "replica"
    else "master")] else []) ++
  [bulk "modules", h.addReplyLoadedModules c.resp]

/-- The error for a client that is not authenticated. -/
def helloNoauth : String :=
  "-NOAUTH HELLO must be called with the client already " ++
    "authenticated, otherwise the HELLO AUTH <user> <pass> " ++
    "option can be used to authenticate the client and " ++
    "select the RESP protocol version at the same time"

/-- `helloCommand`; `ver` is `argv[1]`, and `args` are the arguments after it. -/
def helloCommand (c : Caller) (ver : Bytes) (args : List Bytes) : CommandOutcome :=
  match (h.getLongLongFromObject ver).filter fun n => 2 ≤ n ∧ n ≤ 3 with
  | none => ⟨c, .addReplyError c.flags slack "-NOPROTO unsupported protocol version", []⟩
  | some ver =>
    let x := helloOptions h slack c args
    if !x.2.2 then ⟨x.1, x.2.1, []⟩
    else if !x.1.authenticated then
      ⟨x.1, x.2.1.andThen (.addReplyError x.1.flags slack helloNoauth), []⟩
    else
      let c := { x.1 with resp := if ver = 2 then .resp2 else .resp3 }
      ⟨c, x.2.1.andThen <| (Emit.addReplyMapLen sh c.flags slack c.resp 7).andThen
        (Emit.seq (helloElements sh h srv slack c)), []⟩

end

/-! ### What is queued -/

/-- What is queued is one value. -/
def Answered (v : Version) (a : Emit) (k : Sink) : Prop :=
  ∃ k' s x, a k = .ok k' ∧ k'.out.pending = k.out.pending ++ ofList s ∧ Resp.parse v s = some x

/-- Nothing is queued. -/
def Silent (a : Emit) (k : Sink) : Prop := ∃ k', a k = .ok k' ∧ k'.out.pending = k.out.pending

/-- A function that always queues one value. -/
def OneValue (v : Version) (a : Emit) : Prop := ∃ s x, Appends a s ∧ Reads v s x

/-- CLIENT REPLY OFF and CLIENT REPLY SKIP -/
def quiet (sub : Bytes) (args : List Bytes) : Bool :=
  strcaseeq sub "reply" && args.length = 1 && (strcaseeq (args.getD 0 []) "off" ||
    strcaseeq (args.getD 0 []) "skip")

/-- CLIENT SETNAME with an empty name -/
def clearsName (sub : Bytes) (args : List Bytes) : Bool :=
  strcaseeq sub "setname" && args.length = 1 && args.getD 0 [] = []

/-- The options of HELLO. -/
inductive HelloOption where
  | auth (user password : Bytes)
  | setname (name : Bytes)
  deriving DecidableEq

/-- The options that some arguments are, and whether all arguments were understood. -/
def HelloOption.ofArgs : List Bytes → List HelloOption × Bool
  | [] => ([], true)
  | opt :: args =>
    match strcaseeq opt "AUTH", strcaseeq opt "SETNAME", args with
    | true, _, user :: password :: args => (.auth user password :: (ofArgs args).1, (ofArgs args).2)
    | _, true, name :: args => (.setname name :: (ofArgs args).1, (ofArgs args).2)
    | _, _, _ => ([], false)

/-- The option is no error. -/
def HelloOption.accepted (h : Helpers) : HelloOption → Bool
  | .auth user password => h.aclAuthenticateUser user password
  | .setname name => ∀ b ∈ name, 33 ≤ b ∧ b ≤ 126

def HelloOption.isAuth : HelloOption → Bool
  | .auth _ _ => true
  | .setname _ => false

/-- The client is greeted with the map: there is no error in the options, and the client
is authenticated. -/
def Greeted (h : Helpers) (c : Caller) (args : List Bytes) : Prop :=
  (HelloOption.ofArgs args).2 ∧ (∀ o ∈ (HelloOption.ofArgs args).1, o.accepted h) ∧
    (c.authenticated ∨ ∃ o ∈ (HelloOption.ofArgs args).1, o.isAuth)

/-- No option before the first error sets an empty name, and a client is not greeted in
sentinel mode. -/
def HelloFits (h : Helpers) (srv : ServerInfo) (c : Caller) (ver : Bytes)
    (args : List Bytes) : Prop :=
  (∃ n, h.getLongLongFromObject ver = some n ∧ 2 ≤ n ∧ n ≤ 3) →
    (.setname [] ∉ (HelloOption.ofArgs args).1.takeWhile (·.accepted h)) ∧
      (Greeted h c args → srv.sentinelMode = false)

/-- The shared objects hold what they are named for, each function queues one value where it
queues something, and tracking has nothing to do with how a client takes replies. -/
structure Helpers.Sound (h : Helpers) : Prop where
  ok_eq : h.ok = text "+OK\r\n"
  syntaxerr_eq : h.syntaxerr = text "-ERR syntax error\r\n"
  longLongError_one : ∀ v, OneValue v h.longLongError
  timeoutError_one : ∀ v, OneValue v h.timeoutError
  loadedModules_one : ∀ v, OneValue v (h.addReplyLoadedModules v)
  enableTracking_keeps : ∀ c redir,
    (h.enableTracking c redir).flags = c.flags ∧ (h.enableTracking c redir).resp = c.resp
  disableTracking_keeps : ∀ c,
    (h.disableTracking c).flags = c.flags ∧ (h.disableTracking c).resp = c.resp

/-- A client that is blocked calls no command. -/
def ServerInfo.CallerRuns (srv : ServerInfo) : Prop :=
  ∀ p ∈ srv.clients, p.blocked → p.isCaller = false

section

variable {sh : Shared} {h : Helpers} {srv : ServerInfo} {f : ReplyFlags} {slack : ℕ → ℕ}
  {v : Version} {a : Emit} {s cmd name : Bytes} {k : Sink} {c : Caller}
  {opts : List HelloOption × Bool} {x : Caller × Emit × Bool} {args : List Bytes}

theorem Appends.answered_iff (ha : Appends a s) (hk : k.Ready) :
    Answered v a k ↔ ∃ x, Resp.parse v s = some x := by
  obtain ⟨k', hk', -, -, htext⟩ := ha k hk
  constructor
  · rintro ⟨k'', s', x, hk'', htext', hparse⟩
    obtain rfl : k' = k'' := Except.ok.inj (hk'.symm.trans hk'')
    have hs : ofList s = ofList s' := List.append_cancel_left (htext.symm.trans htext')
    obtain rfl : s = s' := List.map_injective_iff.mpr Sum.inl_injective hs
    exact ⟨x, hparse⟩
  · rintro ⟨x, hparse⟩
    exact ⟨k', s, x, hk', htext, hparse⟩

theorem OneValue.answered (ha : OneValue v a) (hk : k.Ready) : Answered v a k := by
  obtain ⟨s, x, happends, hreads⟩ := ha
  exact (happends.answered_iff hk).mpr ⟨x, hreads.parse⟩

theorem silent_skip (k : Sink) : Silent .skip k := ⟨k, rfl, rfl⟩

/-! ### The reply functions queue one value -/

theorem oneValue_emit (hsh : sh.Literal) (hf : f.Takes) {r : Reply} (hr : r.Paired) :
    OneValue v (r.emit sh f slack v) :=
  ⟨r.bytes v, r.value v, r.emit_appends hsh hf, r.reads hr⟩

theorem oneValue_addReply (hf : f.Takes) {x : Value} (h : Reads v s x) :
    OneValue v (.addReply f slack s) :=
  ⟨s, x, appends_addReply hf s, h⟩

theorem oneValue_addReplyErrorFormat (hf : f.Takes) (s : Bytes) :
    OneValue v (.addReplyErrorFormat f slack s) :=
  ⟨_, _, appends_addReplyErrorFormat hf s, reads_error (clean_errorText s)⟩

theorem oneLine_of_clean (hs : Clean s) : Emit.oneLine s = s := by
  refine (List.map_congr_left fun b hb => ?_).trans (List.map_id s)
  exact if_neg (not_or.mpr (hs b hb))

theorem appends_addReplyError (hf : f.Takes) {err : String} (herr : Clean (text err)) :
    Appends (.addReplyError f slack err) (45 :: (errorText (text err) ++ [13, 10])) := by
  have hformat : Appends (.addReplyErrorFormat f slack (text err)) _ :=
    appends_addReplyErrorFormat hf (text err)
  rwa [Emit.addReplyErrorFormat, oneLine_of_clean herr] at hformat

theorem oneValue_addReplyError (hf : f.Takes) {err : String} (herr : Clean (text err)) :
    OneValue v (.addReplyError f slack err) :=
  ⟨_, _, appends_addReplyError hf herr, reads_error (clean_errorText _)⟩

theorem reads_ok : Reads v (text "+OK\r\n") (.simple (text "OK")) := by
  have hclean : Clean (text "OK") := by decide
  exact reads_simple (v := v) hclean

theorem oneValue_ok (hh : h.Sound) (hf : f.Takes) : OneValue v (.addReply f slack h.ok) := by
  rw [hh.ok_eq]
  exact oneValue_addReply hf reads_ok

theorem oneValue_syntaxerr (hh : h.Sound) (hf : f.Takes) :
    OneValue v (.addReply f slack h.syntaxerr) := by
  have hclean : Clean (text "ERR syntax error") := by decide
  have hreads : Reads v (text "-ERR syntax error\r\n") _ := reads_error (v := v) hclean
  rw [hh.syntaxerr_eq]
  exact oneValue_addReply hf hreads

theorem oneValue_addReplyStatusLength (hf : f.Takes) (hs : Clean s) :
    OneValue v (.addReplyStatusLength f slack s) := by
  refine ⟨43 :: (s ++ [13, 10]), .simple s, ?_, reads_simple hs⟩
  exact (appends_addReplyProto hf [43]).andThen ((appends_addReplyProto hf s).andThen
    (appends_addReplyProto hf _))

theorem oneValue_addReplyBulk (hsh : sh.Literal) (hf : f.Takes) (s : Bytes) :
    OneValue v (.addReplyBulk sh f slack s) := by
  have hlen : Appends (.addReplyBulkLen sh f slack s.length) (lenstr s.length 36) := by
    rw [Emit.addReplyBulkLen]
    split_ifs with hlt
    · refine (appends_addReply hf _).of_eq ?_
      rw [hsh.bulkhdr_eq _ hlt, lenstr, decimalInt_natCast]
    · exact appends_addReplyLongLongWithPrefix hsh hf _ _
  have hcrlf : Appends (.addReply f slack sh.crlf) [13, 10] :=
    (appends_addReply hf _).of_eq hsh.crlf_eq
  exact ⟨_, _, hlen.andThen ((appends_addReply hf s).andThen hcrlf), reads_bulkString s⟩

/-- Functions that queue one value each, one after the other. -/
theorem appends_seq {as : List Emit} (has : ∀ a ∈ as, OneValue v a) :
    ∃ ss xs, Appends (.seq as) ss.flatten ∧ List.Forall₂ (Reads v) ss xs ∧
      xs.length = as.length := by
  induction as with
  | nil => exact ⟨[], [], appends_skip, .nil, rfl⟩
  | cons a as ih =>
    obtain ⟨s, x, happends, hreads⟩ := has a List.mem_cons_self
    obtain ⟨ss, xs, happends', hreads', hlength⟩ := ih fun b hb => has b (List.mem_cons_of_mem a hb)
    exact ⟨s :: ss, x :: xs, happends.andThen happends', .cons hreads hreads',
      congrArg (· + 1) hlength⟩

theorem oneValue_addReplyHelp (hf : f.Takes) {help : List String}
    (hcmd : Clean ((cstring cmd).map toupper)) (hhelp : ∀ line ∈ help, Clean (text line)) :
    OneValue v (.addReplyHelp f slack v cmd help) := by
  have hheader : Clean (text " <subcommand> arg arg ... arg. Subcommands are:") := by decide +kernel
  have hlines : ∀ a ∈ Emit.addReplyStatusLength f slack
      ((cstring cmd).map toupper ++ text " <subcommand> arg arg ... arg. Subcommands are:") ::
        help.map (Emit.addReplyStatus f slack), OneValue v a := by
    intro a ha
    rcases List.mem_cons.mp ha with rfl | ha
    · refine oneValue_addReplyStatusLength hf fun b hb => ?_
      exact (List.mem_append.mp hb).elim (hcmd b) (hheader b)
    · obtain ⟨line, hline, rfl⟩ := List.mem_map.mp ha
      exact oneValue_addReplyStatusLength hf (hhelp line hline)
  obtain ⟨ss, xs, happends, hreads, hlength⟩ := appends_seq hlines
  rw [List.length_cons, List.length_map] at hlength
  refine ⟨_, .aggregate (kindIn v .array) xs, happends.deferred hf .array (help.length + 1), ?_⟩
  have hknown : (Tag.aggregate (kindIn v .array)).known v := by cases v <;> rfl
  have hsize : xs.length = (kindIn v .array).size (announced v .array (help.length + 1)) :=
    hlength.trans (announced_size .array nofun)
  have hreads := reads_aggregate hknown (natural_decimalInt _) hsize hreads
  simpa [lenstr] using hreads

/-! ### CLIENT -/

theorem ReplyFlags.Takes.replyOn (hf : f.Takes) :
    ReplyFlags.Takes { f with replySkip := false, replyOff := false } := by
  refine ⟨?_, hf.open_⟩
  have hprepared := hf.prepared
  rw [prepareClientToWrite] at hprepared ⊢
  by_cases hlua : (f.lua || f.module) = true
  · exact if_pos hlua
  · rw [if_neg hlua] at hprepared ⊢
    by_cases hquiet : (f.replyOff || f.replySkip) = true
    · rw [if_pos hquiet] at hprepared
      exact absurd hprepared (by decide)
    · rwa [if_neg hquiet] at hprepared

/-- The command queues one value of the version that the client has. -/
structure Replies (c : Caller) (o : CommandOutcome) : Prop where
  resp_eq : o.caller.resp = c.resp
  one : OneValue c.resp o.emit

theorem Replies.of_emit {effects : List Effect} (ha : OneValue c.resp a) :
    Replies c ⟨c, a, effects⟩ := ⟨rfl, ha⟩

theorem Replies.answered {o : CommandOutcome} (ho : Replies c o) (hk : k.Ready) :
    Answered o.caller.resp o.emit k :=
  ho.resp_eq ▸ ho.one.answered hk

theorem oneValue_unknownType (hf : f.Takes) (name : Bytes) :
    OneValue v (.addReplyErrorFormat f slack (text "Unknown client type '" ++
      cstring name ++ text "'")) :=
  oneValue_addReplyErrorFormat hf _

theorem clientList_replies (hsh : sh.Literal) (hh : h.Sound) (hc : c.flags.Takes)
    (args : List Bytes) :
    Replies c (clientList sh h srv slack c args) := by
  have hlist : ∀ type, OneValue c.resp (.addReplyBulkCBuffer sh c.flags slack
      (srv.getAllClientsInfoString type)) :=
    fun type => ⟨_, _, appends_addReplyBulkCBuffer hsh hc _, reads_bulkString _⟩
  rw [clientList]
  split_ifs
  · split
    · exact ⟨rfl, oneValue_unknownType hc _⟩
    · exact ⟨rfl, hlist _⟩
  · exact ⟨rfl, oneValue_syntaxerr hh hc⟩
  · exact ⟨rfl, hlist none⟩

theorem clientReply_replies (hh : h.Sound) (hc : c.flags.Takes) {mode : Bytes}
    (hoff : ¬ strcaseeq mode "off") (hskip : ¬ strcaseeq mode "skip") :
    Replies c (clientReply h slack c mode) := by
  rw [clientReply, if_neg hoff, if_neg hskip]
  split_ifs
  · exact ⟨rfl, oneValue_ok hh hc.replyOn⟩
  · exact ⟨rfl, oneValue_syntaxerr hh hc⟩

theorem clientReply_silent {mode : Bytes} (hmode : strcaseeq mode "off" ∨ strcaseeq mode "skip") :
    Silent (clientReply h slack c mode).emit k := by
  have hon : ¬ strcaseeq mode "on" := by
    intro hon
    rw [strcaseeq, decide_eq_true_eq] at hon
    rw [strcaseeq, strcaseeq, hon] at hmode
    exact absurd hmode (by decide)
  rw [clientReply, if_neg hon]
  by_cases hoff : strcaseeq mode "off"
  · rw [if_pos hoff]
    exact silent_skip k
  · rw [if_neg hoff, if_pos (hmode.resolve_left hoff)]
    exact silent_skip k

/-- An error in the options of CLIENT KILL is one value. -/
theorem killOptions_error (hh : h.Sound) (hc : c.flags.Takes) {error : Emit} (filter : KillFilter)
    (args : List Bytes) (heq : killOptions h slack c filter args = .inl error) :
    OneValue v error := by
  have hsyntax : OneValue v (.addReply c.flags slack h.syntaxerr) := oneValue_syntaxerr hh hc
  fun_induction killOptions h slack c filter args with
  | case1 => cases heq
  | case2 | case10 | case11 => exact Sum.inl.inj heq ▸ hsyntax
  | case3 => exact Sum.inl.inj heq ▸ hh.longLongError_one v
  | case5 => exact Sum.inl.inj heq ▸ oneValue_unknownType hc _
  | case4 | case6 | case7 | case8 | case9 =>
    rename_i ih
    exact ih heq

theorem clientKill_replies (hsh : sh.Literal) (hh : h.Sound) (hc : c.flags.Takes)
    (args : List Bytes) :
    Replies c (clientKill sh h srv slack c args) := by
  rw [clientKill]
  split
  · next error herror =>
    refine ⟨rfl, ?_⟩
    split_ifs at herror
    · exact killOptions_error hh hc _ _ herror
    · exact Sum.inl.inj herror ▸ oneValue_syntaxerr hh hc
  · refine ⟨rfl, ?_⟩
    show OneValue c.resp (ite _ _ _)
    split_ifs
    · have hclean : Clean (text "No such client") := by decide
      exact oneValue_addReplyError hc hclean
    · exact oneValue_ok hh hc
    · exact ⟨_, _, appends_addReplyLongLong hsh hc _, reads_number _⟩

theorem clientUnblock_replies (hsh : sh.Literal) (hh : h.Sound) (hsrv : srv.CallerRuns)
    (hc : c.flags.Takes) (args : List Bytes) : Replies c (clientUnblock sh h srv slack c args) := by
  rw [clientUnblock]
  split_ifs
  · have hclean : Clean (text "CLIENT UNBLOCK reason should be TIMEOUT or ERROR") := by decide
    exact ⟨rfl, oneValue_addReplyError hc hclean⟩
  · split
    · exact ⟨rfl, hh.longLongError_one c.resp⟩
    · split
      · next target htarget =>
        -- the target is blocked, so it is some other client
        obtain ⟨hlookup, hblocked⟩ := Option.filter_eq_some_iff.mp htarget
        have hother := hsrv target (List.mem_of_find?_eq_some hlookup) hblocked
        refine ⟨rfl, ?_⟩
        show OneValue c.resp (Emit.andThen (ite _ _ _) _)
        rw [if_neg (by simp [hother])]
        exact ⟨_, _, appends_skip.andThen ((appends_addReply hc _).of_eq hsh.cone_eq),
          reads_number 1⟩
      · exact ⟨rfl, _, _, (appends_addReply hc _).of_eq hsh.czero_eq, reads_number 0⟩

theorem switchTracking_replies (hh : h.Sound) (hc : c.flags.Takes) (mode : Bytes) (redir : ℤ) :
    Replies c (switchTracking h slack c mode redir) := by
  rw [switchTracking]
  split_ifs
  · obtain ⟨hflags, hresp⟩ := hh.enableTracking_keeps c redir
    exact ⟨hresp, oneValue_ok hh (hflags ▸ hc)⟩
  · obtain ⟨hflags, hresp⟩ := hh.disableTracking_keeps c
    exact ⟨hresp, oneValue_ok hh (hflags ▸ hc)⟩
  · exact ⟨rfl, oneValue_syntaxerr hh hc⟩

theorem clientTracking_replies (hh : h.Sound) (hc : c.flags.Takes) (args : List Bytes) :
    Replies c (clientTracking h srv slack c args) := by
  rw [clientTracking]
  split_ifs
  · split
    · exact ⟨rfl, hh.longLongError_one c.resp⟩
    · split_ifs
      · have hclean : Clean (text "The client ID you want redirect to does not exist") := by decide
        exact ⟨rfl, oneValue_addReplyError hc hclean⟩
      · exact switchTracking_replies hh hc _ _
  · exact ⟨rfl, oneValue_syntaxerr hh hc⟩
  · exact switchTracking_replies hh hc _ 0

/-- A string is only one of two literals. -/
theorem strcaseeq_ne {s : Bytes} {a b : String} (ha : strcaseeq s a)
    (hab : (text a).map tolower ≠ (text b).map tolower) :
    ¬ strcaseeq s b := by
  intro hb
  rw [strcaseeq, decide_eq_true_eq] at ha hb
  exact hab (ha.symm.trans hb)

theorem clean_badName :
    Clean (text "Client names cannot contain spaces, newlines or special characters.") := by decide

theorem clientSetname_replies (hh : h.Sound) (hc : c.flags.Takes) (hname : name ≠ []) :
    Replies c (clientSetname h slack c name) := by
  rw [clientSetname, clientSetNameOrReply, if_neg hname]
  by_cases hvalid : ∀ b ∈ name, 33 ≤ b ∧ b ≤ 126
  · rw [if_pos hvalid]
    have hok : OneValue c.resp (.addReply c.flags slack h.ok) := oneValue_ok hh hc
    obtain ⟨s, x, happends, hreads⟩ := hok
    exact ⟨rfl, s, x, appends_skip.andThen happends, hreads⟩
  · rw [if_neg hvalid]
    exact ⟨rfl, oneValue_addReplyError hc clean_badName⟩

theorem clientGetname_replies (hsh : sh.Literal) (hc : c.flags.Takes) :
    Replies c (clientGetname sh slack c) := by
  rw [clientGetname]
  split
  · exact ⟨rfl, oneValue_addReplyBulk hsh hc _⟩
  · have hnull : OneValue c.resp (Reply.emit sh c.flags slack c.resp .null) :=
      oneValue_emit hsh hc trivial
    exact ⟨rfl, hnull⟩

theorem clientPause_replies (hh : h.Sound) (hc : c.flags.Takes) (timeout : Bytes) :
    Replies c (clientPause h slack c timeout) := by
  rw [clientPause]
  split
  · exact ⟨rfl, hh.timeoutError_one c.resp⟩
  · exact ⟨rfl, oneValue_ok hh hc⟩

theorem Replies.ite {p : Prop} [Decidable p] {o o' : CommandOutcome} (hpos : p → Replies c o)
    (hneg : ¬ p → Replies c o') :
    Replies c (if p then o else o') := by
  split_ifs with hp
  · exact hpos hp
  · exact hneg hp

theorem clean_clientHelp : ∀ line ∈ clientHelp, Clean (text line) := by decide +kernel

/-- The command is upper case in its help. -/
theorem clean_cmd (hcmd : cmd.map tolower = text "client") : Clean ((cstring cmd).map toupper) := by
  intro b hb
  obtain ⟨d, hd, rfl⟩ := List.mem_map.mp hb
  have hlower : tolower d ∈ text "client" :=
    hcmd ▸ List.mem_map_of_mem ((List.takeWhile_sublist _).subset hd)
  constructor
  · intro heq
    obtain rfl : d = 13 := by grind [toupper]
    exact absurd hlower (by decide)
  · intro heq
    obtain rfl : d = 10 := by grind [toupper]
    exact absurd hlower (by decide)

/-- CLIENT queues one value, when its name is not cleared. -/
theorem clientCommand_replies (hsh : sh.Literal) (hh : h.Sound) (hsrv : srv.CallerRuns)
    (hc : c.flags.Takes) {sub : Bytes} (hcmd : cmd.map tolower = text "client")
    (hquiet : ¬ quiet sub args) (hname : ¬ clearsName sub args) :
    Replies c (clientCommand sh h srv slack c cmd sub args) := by
  refine .ite (fun hhelp => ?_) fun _ => .ite (fun hid => ?_) fun _ =>
    .ite (fun hlist => ?_) fun _ =>
    .ite (fun hreply => ?_) fun _ => .ite (fun hkill => ?_) fun _ =>
      .ite (fun hunblock => ?_) fun _ =>
    .ite (fun hsetname => ?_) fun _ => .ite (fun hgetname => ?_) fun _ =>
      .ite (fun hpause => ?_) fun _ =>
    .ite (fun htracking => ?_) fun _ => .ite (fun hgetredir => ?_) fun hunknown => ?_
  · exact .of_emit (oneValue_addReplyHelp hc (clean_cmd hcmd) clean_clientHelp)
  · exact ⟨rfl, _, _, appends_addReplyLongLong hsh hc _, reads_number _⟩
  · exact clientList_replies hsh hh hc args
  · rw [quiet, Bool.and_eq_true, Bool.or_eq_true, not_and, not_or] at hquiet
    have hmode := hquiet (by simpa using hreply)
    exact clientReply_replies hh hc hmode.1 hmode.2
  · exact clientKill_replies hsh hh hc args
  · exact clientUnblock_replies hsh hh hsrv hc args
  · refine clientSetname_replies hh hc fun hnil => hname ?_
    simpa [clearsName, hsetname] using hnil
  · exact clientGetname_replies hsh hc
  · exact clientPause_replies hh hc _
  · exact clientTracking_replies hh hc args
  · exact ⟨rfl, _, _, appends_addReplyLongLong hsh hc _, reads_number _⟩
  · exact .of_emit (oneValue_addReplyErrorFormat hc _)

/-- The name of the client is cleared with two replies. -/
theorem clientCommand_clearsName (hh : h.Sound) (hc : c.flags.Takes) {sub : Bytes}
    (hname : clearsName sub args) :
    Appends (clientCommand sh h srv slack c cmd sub args).emit
      (text "+OK\r\n" ++ text "+OK\r\n") := by
  obtain ⟨⟨hsub, hlength⟩, hnil⟩ : (strcaseeq sub "setname" ∧ args.length = 1) ∧
      args.getD 0 [] = [] := by
    simpa [clearsName] using hname
  have hok : Appends (.addReply c.flags slack h.ok) (text "+OK\r\n") :=
    (appends_addReply hc _).of_eq hh.ok_eq
  have hne : args.length ≠ 0 := by omega
  rw [clientCommand, if_neg fun hhelp => hne hhelp.1, if_neg fun hid => hne hid.2,
    if_neg (strcaseeq_ne hsub (by decide)), if_neg fun hreply =>
      strcaseeq_ne hsub (by decide) hreply.1,
    if_neg (strcaseeq_ne hsub (by decide)), if_neg fun hunblock =>
      strcaseeq_ne hsub (by decide) hunblock.1,
    if_pos ⟨hsub, hlength⟩, hnil]
  exact hok.andThen hok

theorem clientCommand_quiet {sub : Bytes} (hquiet : quiet sub args) :
    Silent (clientCommand sh h srv slack c cmd sub args).emit k := by
  obtain ⟨⟨hsub, hlength⟩, hmode⟩ : (strcaseeq sub "reply" ∧ args.length = 1) ∧
      (strcaseeq (args.getD 0 []) "off" ∨ strcaseeq (args.getD 0 []) "skip") := by
    simpa [quiet] using hquiet
  have hne : args.length ≠ 0 := by omega
  rw [clientCommand, if_neg fun hhelp => hne hhelp.1, if_neg fun hid => hne hid.2,
    if_neg (strcaseeq_ne hsub (by decide)), if_pos ⟨hsub, hlength⟩]
  exact clientReply_silent hmode

/-! ### HELLO -/

/-- Bytes that start with the OK of an empty name, or do not. -/
def Cleared (cleared : Prop) (p : Bytes) : Prop :=
  (cleared ∧ ∃ q, p = text "+OK\r\n" ++ q) ∨ (¬ cleared ∧ p = [])

/-- What comes after an OK is too much. -/
theorem Appends.cleared_answered_iff {cleared : Prop} {p t : Bytes} (ha : Appends a (p ++ t))
    (hp : Cleared cleared p) (ht : t ≠ []) (hk : k.Ready) :
    Answered v a k ↔ ¬ cleared ∧ ∃ x, Resp.parse v t = some x := by
  rw [ha.answered_iff hk]
  rcases hp with ⟨hcleared, q, rfl⟩ | ⟨hcleared, rfl⟩
  · have hne : q ++ t ≠ [] := fun hnil => ht (List.append_eq_nil_iff.mp hnil).2
    rw [List.append_assoc, reads_ok.parse_append hne]
    simp [hcleared]
  · simp [hcleared]

/-- What the loop over the options of HELLO does. -/
structure HelloLoop (h : Helpers) (c : Caller) (opts : List HelloOption × Bool)
    (x : Caller × Emit × Bool) : Prop where
  flags_eq : x.1.flags = c.flags
  resp_eq : x.1.resp = c.resp
  done_iff : x.2.2 ↔ opts.2 ∧ ∀ o ∈ opts.1, o.accepted h
  authenticated_iff : x.2.2 → (x.1.authenticated ↔ c.authenticated ∨ ∃ o ∈ opts.1, o.isAuth)
  queues : ∃ p s, Appends x.2.1 (p ++ s) ∧
    Cleared (.setname [] ∈ opts.1.takeWhile (·.accepted h)) p ∧
    if x.2.2 then s = [] else ∀ v, ∃ e, Reads v s e

theorem HelloLoop.nil : HelloLoop h c ([], true) (c, .skip, true) where
  flags_eq := rfl
  resp_eq := rfl
  done_iff := by simp
  authenticated_iff := by simp
  queues := ⟨[], [], appends_skip, .inr ⟨nofun, rfl⟩, rfl⟩

/-- The first argument is no option, or the option is an error. -/
theorem HelloLoop.fail (ha : Appends a (45 :: (errorText s ++ [13, 10])))
    (hopts : opts = ([], false) ∨ ∃ o os fine, opts = (o :: os, fine) ∧ ¬ o.accepted h) :
    HelloLoop h c opts (c, a, false) := by
  have htake : opts.1.takeWhile (·.accepted h) = [] := by
    rcases hopts with rfl | ⟨o, os, fine, rfl, ho⟩
    · rfl
    · exact List.takeWhile_cons_of_neg ho
  refine ⟨rfl, rfl, ?_, nofun, [], _, ha, .inr ⟨by simp [htake], rfl⟩, fun v =>
    ⟨_, reads_error (clean_errorText s)⟩⟩
  rcases hopts with rfl | ⟨o, os, fine, rfl, ho⟩
  · simp
  · simp [ho]

theorem HelloLoop.auth {user password : Bytes}
    (hauth : h.aclAuthenticateUser user password)
    (hx : HelloLoop h { c with authenticated := true, user := user } opts x) :
    HelloLoop h c (.auth user password :: opts.1, opts.2) x := by
  have haccepted : (HelloOption.auth user password).accepted h := hauth
  refine ⟨hx.flags_eq, hx.resp_eq, ?_, fun hdone => ?_, ?_⟩
  · rw [hx.done_iff]
    simp [haccepted]
  · have hauthenticated := hx.authenticated_iff hdone
    simpa [HelloOption.isAuth] using hauthenticated
  · obtain ⟨p, s, ha, hp, hs⟩ := hx.queues
    refine ⟨p, s, ha, ?_, hs⟩
    rw [List.takeWhile_cons_of_pos haccepted]
    simpa using hp

theorem HelloLoop.setname {p : Bytes} {c' : Caller}
    (hvalid : ∀ b ∈ name, 33 ≤ b ∧ b ≤ 126) (hx : HelloLoop h c' opts x)
    (hflags : c'.flags = c.flags) (hresp : c'.resp = c.resp)
    (hauthenticated : c'.authenticated = c.authenticated) (ha : Appends a p)
    (hp : if name = [] then p = text "+OK\r\n" else p = []) :
    HelloLoop h c (.setname name :: opts.1, opts.2) (x.1, a.andThen x.2.1, x.2.2) := by
  have haccepted : (HelloOption.setname name).accepted h := by
    simpa [HelloOption.accepted] using hvalid
  refine ⟨hx.flags_eq.trans hflags, hx.resp_eq.trans hresp, ?_, fun hdone => ?_, ?_⟩
  · show x.2.2 = true ↔ _
    rw [hx.done_iff]
    simp [haccepted]
  · have hauth := hx.authenticated_iff hdone
    rw [hauthenticated] at hauth
    simpa [HelloOption.isAuth] using hauth
  · obtain ⟨q, s, ha', hq, hs⟩ := hx.queues
    refine ⟨p ++ q, s, (ha.andThen ha').of_eq (List.append_assoc p q s).symm, ?_, hs⟩
    rw [List.takeWhile_cons_of_pos haccepted]
    split_ifs at hp with hname
    · subst hname
      exact .inl ⟨List.mem_cons_self, q, hp ▸ rfl⟩
    · have hne : HelloOption.setname [] ≠ .setname name :=
        fun heq => hname (HelloOption.setname.inj heq).symm
      rw [hp, List.nil_append]
      simpa [Cleared, hne] using hq

theorem clientSetNameOrReply_valid (hh : h.Sound) (hc : c.flags.Takes)
    (hvalid : ∀ b ∈ name, 33 ≤ b ∧ b ≤ 126) (hx : clientSetNameOrReply h slack c name = x) :
    x.2.2 = true ∧ x.1.flags = c.flags ∧ x.1.resp = c.resp ∧ x.1.authenticated = c.authenticated ∧
      ∃ p, Appends x.2.1 p ∧ if name = [] then p = text "+OK\r\n" else p = [] := by
  rw [clientSetNameOrReply] at hx
  by_cases hname : name = []
  · rw [if_pos hname] at hx
    subst hx
    exact ⟨rfl, rfl, rfl, rfl, h.ok, appends_addReply hc _, by rw [if_pos hname, hh.ok_eq]⟩
  · rw [if_neg hname, if_pos hvalid] at hx
    subst hx
    exact ⟨rfl, rfl, rfl, rfl, [], appends_skip, by rw [if_neg hname]⟩

theorem clientSetNameOrReply_invalid (hvalid : ¬ ∀ b ∈ name, 33 ≤ b ∧ b ≤ 126) :
    clientSetNameOrReply h slack c name = (c,
      .addReplyError c.flags slack
        "Client names cannot contain spaces, newlines or special characters.", false) := by
  have hname : name ≠ [] := by
    rintro rfl
    exact hvalid nofun
  rw [clientSetNameOrReply, if_neg hname, if_neg hvalid]

theorem helloOptions_loop (hh : h.Sound) (hc : c.flags.Takes) (args : List Bytes) :
    HelloLoop h c (HelloOption.ofArgs args) (helloOptions h slack c args) := by
  fun_induction helloOptions h slack c args with
  | case1 => exact .nil
  | case2 c opt user password args hopt hauth ih =>
    rw [HelloOption.ofArgs.eq_2 _ _ _ _ hopt]
    exact .auth hauth (ih hc)
  | case3 c opt user password args hopt hauth =>
    rw [HelloOption.ofArgs.eq_2 _ _ _ _ hopt]
    exact .fail (appends_addReplyError hc (by decide)) (.inr ⟨_, _, _, rfl, hauth⟩)
  | case4 c opt name args hopt x hdone y hauth ih =>
    rw [HelloOption.ofArgs.eq_3 _ _ _ hopt hauth]
    by_cases hvalid : ∀ b ∈ name, 33 ≤ b ∧ b ≤ 126
    · obtain ⟨-, hflags, hresp, hauthenticated, p, ha, hp⟩ :=
        clientSetNameOrReply_valid hh hc hvalid (show clientSetNameOrReply h slack c name
          = x from rfl)
      exact (ih (hflags ▸ hc)).setname hvalid hflags hresp hauthenticated ha hp
    · rw [show x = _ from clientSetNameOrReply_invalid hvalid] at hdone
      cases hdone
  | case5 c opt name args hopt x hdone hauth =>
    rw [HelloOption.ofArgs.eq_3 _ _ _ hopt hauth]
    by_cases hvalid : ∀ b ∈ name, 33 ≤ b ∧ b ≤ 126
    · exact absurd (clientSetNameOrReply_valid hh hc hvalid
        (show clientSetNameOrReply h slack c name = x from rfl)).1 hdone
    · rw [show x = _ from clientSetNameOrReply_invalid hvalid]
      refine .fail (appends_addReplyError hc clean_badName) (.inr ⟨_, _, _, rfl, ?_⟩)
      simpa [HelloOption.accepted] using hvalid
  | case6 c opt args hauth hsetname =>
    rw [HelloOption.ofArgs.eq_4 _ _ hauth hsetname]
    exact .fail (appends_addReplyErrorFormat hc _) (.inl rfl)

theorem oneValue_addReplyBulkCString (hsh : sh.Literal) (hf : f.Takes) (s : Bytes) :
    OneValue v (.addReplyBulkCString sh f slack s) :=
  ⟨_, _, appends_addReplyBulkCBuffer hsh hf _, reads_bulkString _⟩

/-- The map has 14 elements, but 13 in sentinel mode. -/
theorem helloElements_spec (hsh : sh.Literal) (hh : h.Sound) (hc : c.flags.Takes) :
    (∀ a ∈ helloElements sh h srv slack c, OneValue c.resp a) ∧
      (helloElements sh h srv slack c).length = if srv.sentinelMode then 13 else 14 := by
  have hbulk : ∀ s, OneValue c.resp (.addReplyBulkCString sh c.flags slack s) :=
    oneValue_addReplyBulkCString hsh hc
  have hnumber : ∀ n, OneValue c.resp (.addReplyLongLong sh c.flags slack n) :=
    fun n => ⟨_, _, appends_addReplyLongLong hsh hc n, reads_number n⟩
  have hmodules := hh.loadedModules_one c.resp
  rw [helloElements]
  cases srv.sentinelMode <;> cases srv.clusterEnabled <;> simp [hbulk, hnumber, hmodules]

/-- The map of HELLO is a value, but not in sentinel mode. -/
theorem appends_helloMap (srv : ServerInfo) (slack : ℕ → ℕ) (hsh : sh.Literal) (hh : h.Sound)
    (hc : c.flags.Takes) :
    ∃ t, t ≠ [] ∧ Appends ((Emit.addReplyMapLen sh c.flags slack c.resp 7).andThen
      (Emit.seq (helloElements sh h srv slack c))) t ∧
        ((∃ x, Resp.parse c.resp t = some x) ↔ srv.sentinelMode = false) := by
  have helements : _ ∧ (helloElements sh h srv slack c).length = _ := helloElements_spec hsh hh hc
  obtain ⟨hone, hlength⟩ := helements
  obtain ⟨ss, xs, ha, hreads, hxs⟩ := appends_seq hone
  have hknown : (Tag.aggregate (kindIn c.resp .map)).known c.resp := by cases c.resp <;> rfl
  have hline := natural_decimalInt (announced c.resp .map 14)
  have hsize : 14 = (kindIn c.resp .map).size (announced c.resp .map 14) :=
    announced_size .map fun _ => rfl
  have hbytes : lenstr (announced c.resp .map 14) (Tag.aggregate (kindIn c.resp .map)).byte ++
      ss.flatten =
      (Tag.aggregate (kindIn c.resp .map)).byte ::
        (decimalInt (announced c.resp .map 14) ++ 13 :: 10 :: ss.flatten) := by simp [lenstr]
  refine ⟨_, ?_, (appends_addReplyLen hsh hc .map 14).andThen ha, ?_⟩
  · rw [hbytes]
    exact List.cons_ne_nil _ _
  · rw [hbytes]
    cases hmode : srv.sentinelMode with
    | false =>
      rw [hmode, if_neg Bool.false_ne_true] at hlength
      have hread := reads_aggregate hknown hline ((hxs.trans hlength).trans hsize) hreads
      exact ⟨fun _ => rfl, fun _ => ⟨_, hread.parse⟩⟩
    | true =>
      rw [hmode, if_pos rfl] at hlength
      rw [parse_short hknown hline (by omega) hreads]
      simp

/-- CLIENT has one reply when it does not clear the name, and none when it is quiet. -/
theorem clientCommand_answered_iff (hsh : sh.Literal) (hh : h.Sound) (hsrv : srv.CallerRuns)
    (hc : c.flags.Takes) (hk : k.Ready) (hcmd : cmd.map tolower = text "client") (sub : Bytes)
    (args : List Bytes) :
    (if quiet sub args then Silent (clientCommand sh h srv slack c cmd sub args).emit k
      else Answered (clientCommand sh h srv slack c cmd sub args).caller.resp
        (clientCommand sh h srv slack c cmd sub args).emit k) ↔ ¬ clearsName sub args := by
  by_cases hname : clearsName sub args
  · have hquiet : ¬ quiet sub args := by
      intro hquiet
      simp only [quiet, clearsName, Bool.and_eq_true] at hquiet hname
      exact strcaseeq_ne hquiet.1.1 (by decide) hname.1.1
    have hp : Cleared True (text "+OK\r\n") := .inl ⟨trivial, [], rfl⟩
    have happends : Appends (clientCommand sh h srv slack c cmd sub args).emit _ :=
      clientCommand_clearsName hh hc hname
    rw [if_neg hquiet, happends.cleared_answered_iff hp (by decide) hk]
    simp [hname]
  · rw [iff_true_right hname]
    split_ifs with hquiet
    · exact clientCommand_quiet hquiet
    · exact (clientCommand_replies hsh hh hsrv hc hcmd hquiet hname).answered hk

theorem helloCommand_answered_iff (hsh : sh.Literal) (hh : h.Sound) (hc : c.flags.Takes)
    (hk : k.Ready) (ver : Bytes) (args : List Bytes) :
    Answered (helloCommand sh h srv slack c ver args).caller.resp
      (helloCommand sh h srv slack c ver args).emit k ↔
      HelloFits h srv c ver args := by
  rw [helloCommand, HelloFits]
  cases hver : (h.getLongLongFromObject ver).filter fun n => 2 ≤ n ∧ n ≤ 3 with
  | none =>
    have hnone : ¬ ∃ n, h.getLongLongFromObject ver = some n ∧ 2 ≤ n ∧ n ≤ 3 := by
      rintro ⟨n, hn, hrange⟩
      rw [hn, Option.filter_some_pos (by simpa using hrange)] at hver
      cases hver
    have hclean : Clean (text "-NOPROTO unsupported protocol version") := by decide
    rw [iff_true_right fun hsome => absurd hsome hnone]
    exact (Replies.of_emit (oneValue_addReplyError hc hclean)).answered hk
  | some n =>
    have hsome : ∃ n, h.getLongLongFromObject ver = some n ∧ 2 ≤ n ∧ n ≤ 3 := by
      obtain ⟨hn, hrange⟩ := Option.filter_eq_some_iff.mp hver
      exact ⟨n, hn, by simpa using hrange⟩
    rw [forall_prop_of_true hsome]
    have hloop : HelloLoop h c _ (helloOptions h slack c args) := helloOptions_loop hh hc args
    generalize helloOptions h slack c args = x at hloop
    obtain ⟨p, s, ha, hp, hs⟩ := hloop.queues
    have hflags : x.1.flags.Takes := hloop.flags_eq ▸ hc
    dsimp only
    by_cases hdone : x.2.2
    · rw [if_pos hdone] at hs
      subst hs
      rw [List.append_nil] at ha
      rw [if_neg (by simp [hdone])]
      by_cases hauth : x.1.authenticated
      · -- the client is greeted
        have hgreeted : Greeted h c args :=
          ⟨(hloop.done_iff.mp hdone).1, (hloop.done_iff.mp hdone).2,
            (hloop.authenticated_iff hdone).mp hauth⟩
        rw [if_neg (by simp [hauth]), forall_prop_of_true hgreeted]
        obtain ⟨t, hne, hmap, hparse⟩ :=
          appends_helloMap (c := { x.1 with resp := if n = 2 then .resp2 else .resp3 }) srv slack
            hsh hh hflags
        exact ((ha.andThen hmap).cleared_answered_iff hp hne hk).trans (and_congr_right' hparse)
      · have hgreeted : ¬ Greeted h c args := fun hgreeted =>
          hauth ((hloop.authenticated_iff hdone).mpr hgreeted.2.2)
        have herror : Appends (.addReplyError x.1.flags slack helloNoauth) _ :=
          appends_addReplyError hflags (by decide +kernel)
        have hreads := reads_error (v := x.1.resp) (clean_errorText (text helloNoauth))
        rw [if_pos (by simp [hauth])]
        exact ((ha.andThen herror).cleared_answered_iff hp hreads.ne_nil hk).trans
          (and_congr_right' (iff_of_true ⟨_, hreads.parse⟩ fun hgreeted' =>
            absurd hgreeted' hgreeted))
    · have hgreeted : ¬ Greeted h c args := fun hgreeted =>
        hdone (hloop.done_iff.mpr ⟨hgreeted.1, hgreeted.2.1⟩)
      rw [if_neg hdone] at hs
      obtain ⟨e, hreads⟩ := hs x.1.resp
      rw [if_pos (by simp [hdone])]
      exact (ha.cleared_answered_iff hp hreads.ne_nil hk).trans
        (and_congr_right' (iff_of_true ⟨e, hreads.parse⟩ fun hgreeted' =>
          absurd hgreeted' hgreeted))

/-- **One request, one reply.**  CLIENT queues one value, or nothing when it turns replies
off or skips them, unless it clears the name.  HELLO queues one value, unless an option
before the first error clears the name, or the client is greeted in sentinel mode. -/
theorem one_request_one_reply_iff (hsh : sh.Literal) (hh : h.Sound) (hsrv : srv.CallerRuns)
    (hc : c.flags.Takes) (hk : k.Ready) {cmd : Bytes} (hcmd : cmd.map tolower = text "client") :
    (∀ sub args,
      (if quiet sub args then Silent (clientCommand sh h srv slack c cmd sub args).emit k
        else Answered (clientCommand sh h srv slack c cmd sub args).caller.resp
          (clientCommand sh h srv slack c cmd sub args).emit k) ↔ ¬ clearsName sub args) ∧
    (∀ ver args,
      Answered (helloCommand sh h srv slack c ver args).caller.resp
        (helloCommand sh h srv slack c ver args).emit k ↔
        HelloFits h srv c ver args) :=
  ⟨clientCommand_answered_iff hsh hh hsrv hc hk hcmd, helloCommand_answered_iff hsh hh hc hk⟩

end

/-! ### A server -/

/-- A client with nothing set. -/
def plainCaller : Caller := ⟨plainFlags, false, .resp2, none, 1, true, false, 0, text "default"⟩

/-- The helpers of a server without modules, for the numbers 2 and 3. -/
def plainHelpers : Helpers where
  ok := text "+OK\r\n"
  syntaxerr := text "-ERR syntax error\r\n"
  getLongLongFromObject := fun s => if s = text "2" then some 2 else if s = text "3" then
    some 3 else none
  longLongError := .addReplyError plainFlags (fun _ => 0) "value is not an integer or out of range"
  getTimeoutFromObject := fun _ => none
  timeoutError := .addReplyError plainFlags (fun _ => 0) "timeout is not an integer or out of range"
  replyToBlockedClientTimedOut := .skip
  aclAuthenticateUser := fun _ _ => true
  addReplyLoadedModules := fun _ => .addReplyArrayLen literals plainFlags (fun _ => 0) 0
  enableTracking := fun c redir => { c with tracking := true, trackingRedirection := redir }
  disableTracking := fun c => { c with tracking := false }

def plainServer (sentinelMode : Bool) : ServerInfo :=
  ⟨sentinelMode, false, false, text "5.0", [], fun _ => []⟩

theorem plainHelpers_sound : plainHelpers.Sound where
  ok_eq := rfl
  syntaxerr_eq := rfl
  longLongError_one := fun v => by
    have hclean : Clean (text "value is not an integer or out of range") := by decide
    show OneValue v (.addReplyError plainFlags (fun _ => 0)
        "value is not an integer or out of range")
    exact oneValue_addReplyError ⟨rfl, rfl⟩ hclean
  timeoutError_one := fun v => by
    have hclean : Clean (text "timeout is not an integer or out of range") := by decide
    show OneValue v (.addReplyError plainFlags (fun _ => 0)
        "timeout is not an integer or out of range")
    exact oneValue_addReplyError ⟨rfl, rfl⟩ hclean
  loadedModules_one := fun v => by
    -- an empty array, in both versions
    have happends : Appends (.addReplyAggregateLen literals plainFlags (fun _ => 0) 0 42)
        (lenstr (0 : ℕ) 42) :=
      appends_addReplyAggregateLen literals_literal ⟨rfl, rfl⟩ 0 42
    have hreads : Reads v ((Tag.aggregate .array).byte :: ([48] ++ 13 :: 10 :: [].flatten))
        (.aggregate .array []) :=
      reads_aggregate (by cases v <;> rfl) rfl rfl .nil
    exact ⟨_, _, happends, hreads⟩
  enableTracking_keeps := fun _ _ => ⟨rfl, rfl⟩
  disableTracking_keeps := fun _ => ⟨rfl, rfl⟩

theorem sink_ready_empty : Sink.Ready ⟨.empty, 0⟩ := ⟨Output.wf_empty, nofun⟩

theorem one_request_one_reply_iff_plain :
    Answered .resp2 (clientCommand literals plainHelpers (plainServer true) (fun _ => 0) plainCaller
      (text "CLIENT")
      (text "setname") [text "me"]).emit ⟨.empty, 0⟩ ∧
    Answered .resp3 (helloCommand literals plainHelpers (plainServer false) (fun _ => 0)
      plainCaller (text "3")
      [text "SETNAME", text "me"]).emit ⟨.empty, 0⟩ := by
  have hruns : ∀ mode, (plainServer mode).CallerRuns := fun mode => nofun
  have hcmd : (text "CLIENT").map tolower = text "client" := by decide
  have hreplies := fun mode => @one_request_one_reply_iff literals plainHelpers (plainServer mode)
    (fun _ => 0) ⟨.empty, 0⟩
    plainCaller literals_literal plainHelpers_sound (hruns mode) ⟨rfl, rfl⟩ sink_ready_empty
      (text "CLIENT") hcmd
  constructor
  · have hclient := (hreplies true).1 (text "setname") [text "me"]
    exact hclient.mpr (by decide)
  · have hhello := (hreplies false).2 (text "3") [text "SETNAME", text "me"]
    exact hhello.mpr fun _ => ⟨by decide, fun _ => rfl⟩

/-- The name is cleared with two replies, and HELLO has no reply in sentinel mode. -/
theorem two_replies_and_none :
    ¬ Answered .resp2 (clientCommand literals plainHelpers (plainServer true) (fun _ => 0)
      plainCaller (text "CLIENT")
      (text "setname") [[]]).emit ⟨.empty, 0⟩ ∧
    ¬ Answered .resp3 (helloCommand literals plainHelpers (plainServer true) (fun _ => 0)
      plainCaller (text "3")
      []).emit ⟨.empty, 0⟩ := by
  constructor
  · have hclient := @clientCommand_answered_iff literals plainHelpers (plainServer true)
      (fun _ => 0) (text "CLIENT")
      ⟨.empty, 0⟩ plainCaller literals_literal plainHelpers_sound nofun
        ⟨rfl, rfl⟩ sink_ready_empty (by decide)
      (text "setname") [[]]
    exact fun hanswered => absurd (hclient.mp hanswered) (by decide)
  · have hhello := @helloCommand_answered_iff literals plainHelpers (plainServer true)
      (fun _ => 0) ⟨.empty, 0⟩
      plainCaller literals_literal plainHelpers_sound ⟨rfl, rfl⟩ sink_ready_empty (text "3") []
    intro hanswered
    have hfits := hhello.mp hanswered ⟨3, by decide, by decide, by decide⟩
    exact absurd (hfits.2 ⟨rfl, nofun, .inl rfl⟩) (by decide)

end Networking
