/-
Fetching an RDB file from a server (`sendSync`, `getRDB` and the loop of
`clusterManagerCommandBackup` of redis-cli.c).

The server announces the payload by its length or by a mark of forty bytes that
ends it.  `getRDB` writes what it reads over the file from its beginning on, keeps
the last forty bytes it has read to find the mark, and cuts the mark off again
with `ftruncate`.  The mark, the last bytes and the flag that a mark is in use are
static variables, so a call starts with what the one before it has left.

What `read` returns is an input (`reads`): it cuts the stream as it likes, and a
result of zero stands for the end of the connection and for errors.  The file
system holds files up to `limit` bytes.  The destination is a file; `-`, the
standard output, is left out.
-/
import DecomposeRedis.Sds

open Sds (Bytes decimal)

namespace RdbTransfer

/-- `RDB_EOF_MARK_SIZE` -/
def rdbEofMarkSize : ℕ := 40

/-- `ULLONG_MAX` -/
def ullongMax : ℕ := 2 ^ 64 - 1

/-- The size of `buf`, in both functions. -/
def bufSize : ℕ := 4096

/-- An array of `RDB_EOF_MARK_SIZE` bytes. -/
abbrev Mark := { m : Bytes // m.length = rdbEofMarkSize }

def zeroMark : Mark := ⟨List.replicate rdbEofMarkSize 0, List.length_replicate⟩

/-- Why the process ends: `exit(1)` with one of its messages, or a line that does
not fit into `buf`. -/
inductive Stop where
  | syncWrite
  | bulkLength
  | syncFailed (line : Bytes)
  | opening
  | reading
  | writing
  | overflow
  deriving DecidableEq

/-! ### Announcements -/

/-- The loop of `sendSync` that reads up to a newline, skipping those at the
beginning; `buf` holds the bytes read so far. -/
def readLine : Bytes → Bytes → Except Stop (Bytes × Bytes)
  | [], _ => .error .bulkLength
  | b :: input, buf =>
    if bufSize ≤ buf.length then .error .overflow
    else if b = 10 ∧ buf ≠ [] then .ok (buf, input)
    else if b = 10 then readLine input buf
    else readLine input (buf ++ [b])

def isspace (b : UInt8) : Bool := b = 32 || (9 ≤ b && b ≤ 13)

def isdigit (b : UInt8) : Bool := 48 ≤ b && b ≤ 57

/-- `strtoull(s, NULL, 10)` -/
def strtoull (s : Bytes) : ℕ :=
  let s := s.dropWhile isspace
  let neg := s.head? = some 45
  let s := if s.head? = some 45 ∨ s.head? = some 43 then s.tail else s
  let n := Nat.ofDigits 10 ((s.takeWhile isdigit).map fun b => b.toNat - 48).reverse
  if ullongMax < n then ullongMax else if neg then (2 ^ 64 - n) % 2 ^ 64 else n

/-- `EOF:` -/
def eofTag : Bytes := [69, 79, 70, 58]

/-- What `sendSync` makes of the line: the length of the payload, or zero and the
mark. -/
def announced (buf : Bytes) (out_eof : Mark) : Except Stop (ℕ × Mark) :=
  if buf.head? = some 45 then .error (.syncFailed buf)
  else if h : (buf.drop 1).take 4 = eofTag ∧
      rdbEofMarkSize ≤ ((buf.drop 5).takeWhile (· ≠ 0)).length then
    .ok (0, ⟨(buf.drop 5).take rdbEofMarkSize, by
      rw [List.length_take]
      exact min_eq_left (h.2.trans (List.takeWhile_sublist _).length_le)⟩)
  else .ok (strtoull (buf.drop 1), out_eof)

/-- `sendSync`, with the input behind the line. -/
def sendSync (sent : Bool) (input : Bytes) (out_eof : Mark) : Except Stop (ℕ × Mark × Bytes) :=
  if sent then
    (readLine input []).bind fun x => (announced x.1 out_eof).map fun y => (y.1, y.2, x.2)
  else .error .syncWrite

/-! ### The transfer -/

/-- The update of `lastbytes`. -/
def slide (lastbytes : Mark) (buf : Bytes) : Mark :=
  if h : rdbEofMarkSize ≤ buf.length then
    ⟨buf.drop (buf.length - rdbEofMarkSize), by rw [List.length_drop]; omega⟩
  else ⟨lastbytes.1.drop buf.length ++ buf, by
    rw [List.length_append, List.length_drop, lastbytes.2]; omega⟩

/-- `write` at the position of the file descriptor. -/
def pwrite (file : Bytes) (pos : ℕ) (buf : Bytes) : Bytes :=
  file.take pos ++ buf ++ file.drop (pos + buf.length)

/-- `ftruncate`; the length is converted to the signed `off_t`, and a negative one
is an error. -/
def ftruncate (limit : ℕ) (works : Bool) (file : Bytes) (length : ℕ) : Bytes :=
  if length < 2 ^ 63 ∧ length ≤ limit ∧ works then
    file.take length ++ List.replicate (length - file.length) 0
  else file

/-- `ULLONG_MAX - payload - RDB_EOF_MARK_SIZE`, in unsigned arithmetic. -/
def lengthBeforeMark (payload : ℕ) : ℕ :=
  (ullongMax - payload + 2 ^ 64 - rdbEofMarkSize) % 2 ^ 64

/-- What the loop of `getRDB` works on. -/
structure Copy where
  payload : ℕ
  input : Bytes
  file : Bytes
  pos : ℕ
  lastbytes : Mark

/-- `nread` bytes are read and written. -/
def Copy.read (usemark : Bool) (x : Copy) (nread : ℕ) : Copy where
  payload := x.payload - nread
  input := x.input.drop nread
  file := pwrite x.file x.pos (x.input.take nread)
  pos := x.pos + nread
  lastbytes := if usemark then slide x.lastbytes (x.input.take nread) else x.lastbytes

/-- The loop of `getRDB`. -/
def copyLoop (usemark : Bool) (eofmark : Mark) (limit : ℕ) : List ℕ → Copy → Except Stop Copy
  | [], x => if x.payload = 0 then .ok x else .error .reading
  | r :: reads, x =>
    if x.payload = 0 then .ok x
    else
      let nread := min r (min (min x.payload bufSize) x.input.length)
      if nread = 0 then .error .reading
      else if limit < x.pos + nread then .error .writing
      else if usemark ∧ (x.read usemark nread).lastbytes = eofmark then
        .ok (x.read usemark nread)
      else copyLoop usemark eofmark limit reads (x.read usemark nread)

/-- The static variables of `getRDB`. -/
structure Statics where
  eofmark : Mark
  lastbytes : Mark
  usemark : Bool
  deriving DecidableEq

/-- Their values when the process starts. -/
def Statics.start : Statics := ⟨zeroMark, zeroMark, false⟩

/-- What the surroundings of a call do. -/
structure Transfer where
  /-- `SYNC` could be written. -/
  sent : Bool
  /-- The bytes that arrive on the socket. -/
  input : Bytes
  /-- What the calls of `read` return, at most. -/
  reads : List ℕ
  /-- The file could be opened. -/
  opens : Bool
  /-- A valid `ftruncate` works. -/
  truncates : Bool

/-- `getRDB`, up to its message of success: the static variables and the content
of the file. -/
def getRDB (limit : ℕ) (st : Statics) (file : Bytes) (x : Transfer) :
    Except Stop (Statics × Bytes) :=
  (sendSync x.sent x.input st.eofmark).bind fun (payload, eofmark, input) =>
    let usemark : Bool := payload = 0 || st.usemark
    let lastbytes := if payload = 0 then zeroMark else st.lastbytes
    let payload := if payload = 0 then ullongMax else payload
    if x.opens then
      (copyLoop usemark eofmark limit x.reads ⟨payload, input, file, 0, lastbytes⟩).map fun c =>
        (⟨eofmark, c.lastbytes, usemark⟩,
          if usemark then
            ftruncate limit x.truncates c.file (lengthBeforeMark c.payload)
          else c.file)
    else .error .opening

/-! ### The backup of a cluster -/

/-- A process of redis-cli, with the files it sees. -/
structure Process where
  statics : Statics
  files : String → Option Bytes

/-- A node of the cluster, with what happens when its data are fetched. -/
structure BackupNode where
  replicate : Bool
  filename : String
  transfer : Transfer

/-- A turn of the loop of `clusterManagerCommandBackup`: replicas are skipped, and
the file is created if it does not exist. -/
def backupNode (limit : ℕ) (p : Process) (n : BackupNode) : Except Stop Process :=
  if n.replicate then .ok p
  else (getRDB limit p.statics ((p.files n.filename).getD []) n.transfer).map fun (st, file) =>
    ⟨st, Function.update p.files n.filename (some file)⟩

/-- The loop of `clusterManagerCommandBackup`. -/
def backup (limit : ℕ) (p : Process) (nodes : List BackupNode) : Except Stop Process :=
  nodes.foldlM (backupNode limit) p

end RdbTransfer
