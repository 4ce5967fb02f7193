/-
Dynamic strings with their headers (sds.c, sds.h).

A string is the flags byte before it, the `len` and `alloc` fields of its header and the
bytes from the string to the end of its allocation.  The low three bits of the flags are
the header type, which says how wide the fields are; a header of type 5 has no fields, and
its length is in the other five bits of the flags.  All fields are written modulo their
width.  New memory has any content (`junk`), and allocation does not fail.

A function is `none` where an assertion fails or where it reads or writes outside the
allocation.
-/
import DecomposeRedis.Sds

namespace SdsHeader

open Function

abbrev Bytes := Sds.Bytes

/-- `SDS_TYPE_5` to `SDS_TYPE_64` -/
inductive SdsType where
  | t5 | t8 | t16 | t32 | t64
  deriving DecidableEq

def SdsType.code : SdsType → ℕ
  | .t5 => 0
  | .t8 => 1
  | .t16 => 2
  | .t32 => 3
  | .t64 => 4

/-- The bits of a length. -/
def SdsType.width : SdsType → ℕ
  | .t5 => 5
  | .t8 => 8
  | .t16 => 16
  | .t32 => 32
  | .t64 => 64

/-- The type in a flags byte (`SDS_TYPE_MASK`). -/
def SdsType.ofFlags (flags : ℕ) : Option SdsType :=
  match flags % 8 with
  | 0 => some .t5
  | 1 => some .t8
  | 2 => some .t16
  | 3 => some .t32
  | 4 => some .t64
  | _ => none

/-- `sdsHdrSize` -/
def sdsHdrSize : SdsType → ℕ
  | .t5 => 1
  | .t8 => 3
  | .t16 => 5
  | .t32 => 9
  | .t64 => 17

/-- `sdsReqType` -/
def sdsReqType (n : ℕ) : SdsType :=
  if n < 2 ^ 5 then .t5
  else if n < 2 ^ 8 then .t8
  else if n < 2 ^ 16 then .t16
  else if n < 2 ^ 32 then .t32
  else .t64

/-- A string: `s[-1]`, the fields of its header, and the bytes from `s` on. -/
structure Str where
  flags : ℕ
  len : ℕ
  alloc : ℕ
  buf : Bytes
  deriving DecidableEq

def Str.type (s : Str) : Option SdsType := SdsType.ofFlags s.flags

/-- A number as a `size_t`. -/
def sizeT (n : ℤ) : ℕ := (n % 2 ^ 64).toNat

/-- A number as an `ssize_t`. -/
def ssizeT (n : ℤ) : ℤ := n.bmod (2 ^ 64)

/-- `sdslen` -/
def sdslen (s : Str) : ℕ :=
  match s.type with
  | some .t5 => s.flags / 8
  | some _ => s.len
  | none => 0

/-- `sdsalloc` -/
def sdsalloc (s : Str) : ℕ :=
  match s.type with
  | some .t5 => s.flags / 8
  | some _ => s.alloc
  | none => 0

/-- `sdsavail`; the difference of 32-bit fields is a 32-bit number. -/
def sdsavail (s : Str) : ℕ :=
  match s.type with
  | some .t5 => 0
  | some .t32 => (((s.alloc : ℤ) - s.len) % 2 ^ 32).toNat
  | some _ => sizeT ((s.alloc : ℤ) - s.len)
  | none => 0

/-- `sdssetlen` -/
def sdssetlen (s : Str) (newlen : ℕ) : Str :=
  match s.type with
  | some .t5 => { s with flags := newlen * 8 % 256 }
  | some t => { s with len := newlen % 2 ^ t.width }
  | none => s

/-- `sdssetalloc` -/
def sdssetalloc (s : Str) (newlen : ℕ) : Str :=
  match s.type with
  | some .t5 => s
  | some t => { s with alloc := newlen % 2 ^ t.width }
  | none => s

/-! ### Memory -/

/-- New memory of a size. -/
def fresh (junk : Bytes) (n : ℕ) : Bytes := (junk ++ List.replicate n 0).take n

/-- The bytes behind the header in a new allocation. -/
def s_malloc (junk : Bytes) (size hdrlen : ℕ) : Bytes := fresh junk (size - hdrlen)

/-- The same in an allocation of another size. -/
def s_realloc (junk buf : Bytes) (size hdrlen : ℕ) : Bytes :=
  buf.take (size - hdrlen) ++ fresh junk (size - hdrlen - buf.length)

/-- Read some bytes. -/
def read (buf : Bytes) (i n : ℕ) : Option Bytes :=
  if i + n ≤ buf.length then some ((buf.drop i).take n) else none

/-- Write some bytes (`memcpy`, `memset`, or one by one). -/
def write (buf : Bytes) (i : ℕ) (x : Bytes) : Option Bytes :=
  if i + x.length ≤ buf.length then some (buf.take i ++ (x ++ buf.drop (i + x.length))) else none

def Str.write (s : Str) (i : ℕ) (x : Bytes) : Option Str :=
  (SdsHeader.write s.buf i x).map fun buf => { s with buf := buf }

/-! ### Functions -/

/-- The `init` argument of `sdsnewlen`: bytes, a null pointer, or `SDS_NOINIT`. -/
inductive Init where
  | bytes (x : Bytes)
  | null (initlen : ℕ)
  | noinit (initlen : ℕ)

def Init.initlen : Init → ℕ
  | .bytes x => x.length
  | .null n | .noinit n => n

/-- The memory of a new string before its header is written: zeros for a null pointer. -/
def Init.memory (init : Init) (buf : Bytes) : Bytes :=
  match init with
  | .null _ => List.replicate buf.length 0
  | _ => buf

/-- The header that `sdsnewlen` writes. -/
def newHeader (type : SdsType) (initlen : ℕ) (buf : Bytes) : Str :=
  match type with
  | .t5 => ⟨initlen * 8 % 256, 0, 0, buf⟩
  | t => ⟨t.code, initlen % 2 ^ t.width, initlen % 2 ^ t.width, buf⟩

/-- The bytes are copied, if there are any. -/
def Init.copy (init : Init) (s : Str) : Option Str :=
  match init with
  | .bytes x => if x.length = 0 then some s else s.write 0 x
  | _ => some s

/-- `sdsnewlen` -/
def sdsnewlen (junk : Bytes) (init : Init) : Option Str :=
  let initlen := init.initlen
  let type := sdsReqType initlen
  let type := if type = .t5 ∧ initlen = 0 then .t8 else type
  let hdrlen := sdsHdrSize type
  let buf := init.memory (s_malloc junk (hdrlen + initlen + 1) hdrlen)
  (init.copy (newHeader type initlen buf)).bind fun s => s.write initlen [0]

/-- `sdsdup` -/
def sdsdup (junk : Bytes) (s : Str) : Option Str :=
  (read s.buf 0 (sdslen s)).bind fun x => sdsnewlen junk (.bytes x)

/-- `sdsclear` -/
def sdsclear (s : Str) : Option Str := (sdssetlen s 0).write 0 [0]

/-- `SDS_MAX_PREALLOC` -/
def maxPrealloc : ℕ := 1024 * 1024

/-- The string in a new allocation with a header of another type. -/
def move (junk : Bytes) (s : Str) (type : SdsType) (len size : ℕ) : Option Str :=
  (read s.buf 0 (len + 1)).bind fun x =>
    (write (s_malloc junk (sdsHdrSize type + size + 1) (sdsHdrSize type)) 0 x).map fun buf =>
      sdssetlen ⟨type.code, 0, 0, buf⟩ len

/-- `sdsMakeRoomFor` -/
def sdsMakeRoomFor (junk : Bytes) (s : Str) (addlen : ℕ) : Option Str :=
  if addlen ≤ sdsavail s then some s
  else
    let len := sdslen s
    let newlen := sizeT (len + addlen)
    let newlen := if newlen < maxPrealloc then newlen * 2 else sizeT (newlen + maxPrealloc)
    let type := sdsReqType newlen
    let type := if type = .t5 then .t8 else type
    let hdrlen := sdsHdrSize type
    (if s.type = some type then some { s with
      buf := s_realloc junk s.buf (hdrlen + newlen + 1) hdrlen }
      else move junk s type len newlen).map fun s => sdssetalloc s newlen

/-- `sdsRemoveFreeSpace` -/
def sdsRemoveFreeSpace (junk : Bytes) (s : Str) : Option Str :=
  s.type.bind fun oldtype =>
    let oldhdrlen := sdsHdrSize oldtype
    let len := sdslen s
    if sdsavail s = 0 then some s
    else
      let type := sdsReqType len
      (if oldtype = type ∨ SdsType.t8.code < type.code then
          some { s with buf := s_realloc junk s.buf (oldhdrlen + len + 1) oldhdrlen }
        else move junk s type len len).map fun s => sdssetalloc s len

/-- The assertions of `sdsIncrLen` for headers with fields. -/
def SdsType.allowsIncr (t : SdsType) (alloc len incr : ℤ) : Prop :=
  match t with
  | .t64 =>
    (0 ≤ incr ∧ incr % 2 ^ 64 ≤ (alloc - len) % 2 ^ 64) ∨ (incr < 0 ∧ (-incr) % 2 ^ 64 ≤ len)
  | .t32 =>
    (0 ≤ incr ∧ incr % 2 ^ 32 ≤ (alloc - len) % 2 ^ 32) ∨ (incr < 0 ∧ (-incr) % 2 ^ 32 ≤ len)
  | _ => (0 ≤ incr ∧ incr ≤ alloc - len) ∨ (incr < 0 ∧ (-incr) % 2 ^ 32 ≤ len)

instance (t : SdsType) (alloc len incr : ℤ) : Decidable (t.allowsIncr alloc len incr) := by
  cases t <;> unfold SdsType.allowsIncr <;> infer_instance

/-- `sdsIncrLen` -/
def sdsIncrLen (s : Str) (incr : ℤ) : Option Str :=
  match s.type with
  | some .t5 =>
    let oldlen : ℤ := (s.flags / 8 : ℕ)
    if (0 < incr ∧ ssizeT (oldlen + incr) < 32) ∨ (incr < 0 ∧ (-incr) % 2 ^ 32 ≤ oldlen) then
      { s with flags := (ssizeT (oldlen + incr) * 8 % 256).toNat }.write
        (sizeT (ssizeT (oldlen + incr))) [0]
    else none
  | some t =>
    if t.allowsIncr s.alloc s.len incr then
      let len := (((s.len : ℤ) + incr) % 2 ^ t.width).toNat
      { s with len := len }.write len [0]
    else none
  | none => s.write 0 [0]

/-- `sdsgrowzero` -/
def sdsgrowzero (junk : Bytes) (s : Str) (len : ℕ) : Option Str :=
  let curlen := sdslen s
  if len ≤ curlen then some s
  else
    (sdsMakeRoomFor junk s (len - curlen)).bind fun s =>
      (s.write curlen (List.replicate (len - curlen + 1) 0)).map fun s => sdssetlen s len

/-- `sdscatlen` -/
def sdscatlen (junk : Bytes) (s : Str) (t : Bytes) : Option Str :=
  let curlen := sdslen s
  (sdsMakeRoomFor junk s t.length).bind fun s => (s.write curlen t).bind fun s =>
    (sdssetlen s (curlen + t.length)).write (curlen + t.length) [0]

/-- `sdscpylen` -/
def sdscpylen (junk : Bytes) (s : Str) (t : Bytes) : Option Str :=
  (if sdsalloc s < t.length then sdsMakeRoomFor junk s (t.length - sdslen s)
    else some s).bind fun s =>
    (s.write 0 t).bind fun s => (s.write t.length [0]).map fun s => sdssetlen s t.length

/-- Where `sdsrange` cuts a string of some length: the start and the new length. -/
def rangeCut (len start stop : ℤ) : ℤ × ℤ :=
  let start := if start < 0 then max (len + start) 0 else start
  let stop := if stop < 0 then max (len + stop) 0 else stop
  let newlen := if stop < start then 0 else stop - start + 1
  if newlen ≠ 0 then
    if len ≤ start then (start, 0)
    else if len ≤ stop then (start, if len - 1 < start then 0 else len - 1 - start + 1)
    else (start, newlen)
  else (0, newlen)

/-- `sdsrange` -/
def sdsrange (s : Str) (start stop : ℤ) : Option Str :=
  let len := sdslen s
  if len = 0 then some s
  else
    let cut := rangeCut len start stop
    let start := cut.1.toNat
    let newlen := cut.2.toNat
    (if start ≠ 0 ∧ newlen ≠ 0 then (read s.buf start newlen).bind (s.write 0)
      else some s).bind fun s =>
      (s.write newlen [0]).map fun s => sdssetlen s newlen

/-- The inner loop of `sdsmapchars`. -/
def mapChar : List (UInt8 × UInt8) → UInt8 → UInt8
  | [], c => c
  | (a, b) :: set, c => if c = a then b else mapChar set c

/-- `sdsmapchars`; the set is `from` and `to`, character by character. -/
def sdsmapchars (s : Str) (set : List (UInt8 × UInt8)) : Option Str :=
  (read s.buf 0 (sdslen s)).bind fun x => s.write 0 (x.map (mapChar set))

/-! ### Calls -/

/-- The calls on some strings, each string in a variable.  A caller of `sdsIncrLen` first
writes bytes behind the end of the string. -/
inductive Call where
  | sdsnewlen (v : ℕ) (init : Init) (junk : Bytes)
  | sdsMakeRoomFor (v addlen : ℕ) (junk : Bytes)
  | sdsIncrLen (v : ℕ) (written : Bytes) (incr : ℤ)
  | sdsRemoveFreeSpace (v : ℕ) (junk : Bytes)
  | sdscatlen (v : ℕ) (t junk : Bytes)
  | sdscpylen (v : ℕ) (t junk : Bytes)
  | sdsgrowzero (v len : ℕ) (junk : Bytes)
  | sdsclear (v : ℕ)
  | sdsrange (v : ℕ) (start stop : ℤ)
  | sdsmapchars (v : ℕ) (set : List (UInt8 × UInt8))
  | sdsdup (v w : ℕ) (junk : Bytes)

abbrev Strings := ℕ → Option Str

/-- A call that changes one string. -/
def Strings.change (st : Strings) (v : ℕ) (f : Str → Option Str) : Option (Strings × Unit) :=
  (st v).bind fun s => (f s).map fun s => (update st v (some s), ())

def step (st : Strings) : Call → Option (Strings × Unit)
  | .sdsnewlen v init junk =>
    (SdsHeader.sdsnewlen junk init).map fun s => (update st v (some s), ())
  | .sdsMakeRoomFor v addlen junk => st.change v fun s => SdsHeader.sdsMakeRoomFor junk s addlen
  | .sdsIncrLen v written incr =>
    st.change v fun s => (s.write (sdslen s) written).bind fun s => SdsHeader.sdsIncrLen s incr
  | .sdsRemoveFreeSpace v junk => st.change v (SdsHeader.sdsRemoveFreeSpace junk)
  | .sdscatlen v t junk => st.change v fun s => SdsHeader.sdscatlen junk s t
  | .sdscpylen v t junk => st.change v fun s => SdsHeader.sdscpylen junk s t
  | .sdsgrowzero v len junk => st.change v fun s => SdsHeader.sdsgrowzero junk s len
  | .sdsclear v => st.change v SdsHeader.sdsclear
  | .sdsrange v start stop => st.change v fun s => SdsHeader.sdsrange s start stop
  | .sdsmapchars v set => st.change v fun s => SdsHeader.sdsmapchars s set
  | .sdsdup v w junk =>
    (st v).bind fun s => (SdsHeader.sdsdup junk s).map fun s => (update st w (some s), ())

/-- The bound on all sizes. -/
def maxSize : ℕ := 2 ^ 62

/-- The string of a variable meets a condition. -/
def Strings.Is (st : Strings) (v : ℕ) (P : Str → Prop) : Prop := ∃ s, st v = some s ∧ P s

instance (st : Strings) (v : ℕ) (P : Str → Prop) [DecidablePred P] : Decidable (st.Is v P) :=
  match h : st v with
  | none => isFalse fun ⟨_, hs, _⟩ => nomatch h.symm.trans hs
  | some s => decidable_of_iff (P s)
      ⟨fun hp => ⟨s, h, hp⟩, fun ⟨_, hs, hp⟩ => Option.some.inj (h.symm.trans hs) ▸ hp⟩

/-- The caller's part: the strings exist, the sizes are below the bound, and `sdsIncrLen`
stays within the room that `sdsavail` announces (or trims the string). -/
def Within (st : Strings) : Call → Prop
  | .sdsnewlen _ init _ => init.initlen < maxSize
  | .sdsMakeRoomFor v addlen _ => st.Is v fun s => sdslen s + addlen < maxSize
  | .sdsIncrLen v written incr =>
    st.Is v fun s => written.length ≤ sdsavail s ∧ incr ≤ written.length ∧ -incr ≤ sdslen s ∧
      sdslen s + incr < maxSize
  | .sdscatlen v t _ => st.Is v fun s => sdslen s + t.length < maxSize
  | .sdscpylen v t _ => st.Is v fun _ => t.length < maxSize
  | .sdsgrowzero v len _ => st.Is v fun _ => len < maxSize
  | .sdsRemoveFreeSpace v _ | .sdsclear v | .sdsrange v _ _ | .sdsmapchars v _ | .sdsdup v _ _ =>
    st.Is v fun _ => True

instance (st : Strings) (c : Call) : Decidable (Within st c) := by
  cases c <;> unfold Within <;> infer_instance

/-- Not an increment by zero of a string whose header is of type 5. -/
def NotIdle (st : Strings) : Call → Prop
  | .sdsIncrLen v _ incr => incr = 0 → ∀ s ∈ st v, s.type ≠ some .t5
  | _ => True

instance (st : Strings) (c : Call) : Decidable (NotIdle st c) := by
  cases c <;> unfold NotIdle <;> infer_instance

end SdsHeader
