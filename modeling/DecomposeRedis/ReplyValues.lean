/-
The reply functions (networking.c, from `addReplyErrorLength` to `addReplyVerbatim`).

A reply is a tree: strings, numbers and aggregates, whose length is either announced by
one of the `addReply*Len` functions or filled in afterwards, by `addReplyDeferredLen` and
one of the `setDeferred*Len` functions.  `Reply.emit` makes the calls for a tree.

The shared objects, `ll2string` and `OBJ_SHARED_BULKHDR_LEN` are not in the files at hand;
`Shared.Literal` is what they are assumed to hold.  Each call gets some `slack` from the
allocator, and a placeholder has the number of its call as its address.

`reply_is_one_value` says that the bytes of a tree are one value of RESP, that tree.
-/
import DecomposeRedis.ReplyOrder
import DecomposeRedis.Resp

namespace Networking

open Sds Holes
open Resp hiding Bytes

/-! ### The functions -/

/-- What is shared by all replies: strings, `ll2string` and `OBJ_SHARED_BULKHDR_LEN`. -/
structure Shared where
  crlf : Bytes
  czero : Bytes
  cone : Bytes
  mbulkhdr : ℕ → Bytes
  bulkhdr : ℕ → Bytes
  bulkhdrLen : ℕ
  ll2string : ℤ → Bytes

/-- The output of a client, and how many calls were made on it. -/
structure Sink where
  out : Output
  calls : ℕ

/-- A function that adds to a reply. -/
abbrev Emit := Sink → Except Fault Sink

section

variable (sh : Shared) (f : ReplyFlags) (slack : ℕ → ℕ) (v : Version)

namespace Emit

/-- Nothing is added. -/
def skip : Emit := fun k => .ok k

/-- One function after the other. -/
def andThen (a b : Emit) : Emit := fun k => (a k).bind b

/-- `addReplyProto` -/
def addReplyProto (s : Bytes) : Emit := fun k =>
  .ok ⟨Networking.addReplyProto f k.out s (slack k.calls), k.calls + 1⟩

/-- `addReply`, of a string -/
def addReply (s : Bytes) : Emit := fun k =>
  (Networking.addReply f k.out (.sdsEncoded s) (slack k.calls)).map fun out => ⟨out, k.calls + 1⟩

/-- `addReplySds` -/
def addReplySds (s : Bytes) : Emit := fun k =>
  .ok ⟨Networking.addReplySds f k.out s (slack k.calls), k.calls + 1⟩

/-- `addReplyLongLongWithPrefix` -/
def addReplyLongLongWithPrefix (ll : ℤ) (tag : UInt8) : Emit :=
  if tag = 42 ∧ ll < sh.bulkhdrLen ∧ 0 ≤ ll then addReply f slack (sh.mbulkhdr ll.toNat)
  else if tag = 36 ∧ ll < sh.bulkhdrLen ∧ 0 ≤ ll then addReply f slack (sh.bulkhdr ll.toNat)
  else addReplyProto f slack (tag :: sh.ll2string ll ++ [13, 10])

/-- `addReplyLongLong` -/
def addReplyLongLong (ll : ℤ) : Emit :=
  if ll = 0 then addReply f slack sh.czero
  else if ll = 1 then addReply f slack sh.cone
  else addReplyLongLongWithPrefix sh f slack ll 58

/-- `addReplyAggregateLen`; a length is not negative. -/
def addReplyAggregateLen (length : ℕ) (tag : UInt8) : Emit :=
  if tag = 42 ∧ length < sh.bulkhdrLen then addReply f slack (sh.mbulkhdr length)
  else addReplyLongLongWithPrefix sh f slack length tag

/-- `addReplyArrayLen` -/
def addReplyArrayLen (length : ℕ) : Emit := addReplyAggregateLen sh f slack length 42

/-- `addReplyMapLen` -/
def addReplyMapLen (length : ℕ) : Emit :=
  addReplyAggregateLen sh f slack (if v = .resp2 then length * 2
    else length) (if v = .resp2 then 42 else 37)

/-- `addReplySetLen` -/
def addReplySetLen (length : ℕ) : Emit :=
  addReplyAggregateLen sh f slack length (if v = .resp2 then 42 else 126)

/-- `addReplyPushLen` -/
def addReplyPushLen (length : ℕ) : Emit :=
  addReplyAggregateLen sh f slack length (if v = .resp2 then 42 else 62)

/-- `addReplyNull` -/
def addReplyNull : Emit :=
  if v = .resp2 then addReplyProto f slack [36, 45, 49, 13, 10]
  else addReplyProto f slack [95, 13, 10]

/-- `addReplyBool` -/
def addReplyBool (b : Bool) : Emit :=
  if v = .resp2 then addReply f slack (if b then sh.cone else sh.czero)
  else addReplyProto f slack [35, if b then 116 else 102, 13, 10]

/-- `addReplyBulkCBuffer` -/
def addReplyBulkCBuffer (p : Bytes) : Emit :=
  (addReplyLongLongWithPrefix sh f slack p.length 36).andThen <|
    (addReplyProto f slack p).andThen (addReply f slack sh.crlf)

/-- `addReplyBulkSds` -/
def addReplyBulkSds (s : Bytes) : Emit :=
  (addReplyLongLongWithPrefix sh f slack s.length 36).andThen <|
    (addReplySds f slack s).andThen (addReply f slack sh.crlf)

/-- `addReplyBulkLongLong` -/
def addReplyBulkLongLong (ll : ℤ) : Emit := addReplyBulkCBuffer sh f slack (sh.ll2string ll)

/-- The three characters of the extension of a verbatim string. -/
def verbatimExt (ext : Bytes) : Bytes := (ext.takeWhile (· ≠ 0) ++ [32, 32, 32]).take 3

/-- `addReplyVerbatim` -/
def addReplyVerbatim (s ext : Bytes) : Emit :=
  if v = .resp2 then addReplyBulkCBuffer sh f slack s
  else
    (addReplyProto f slack (61 :: decimal (s.length + 4) ++ [13, 10] ++
      verbatimExt ext ++ [58])).andThen <|
      (addReplyProto f slack s).andThen (addReplyProto f slack [13, 10])

/-- `addReplyErrorLength` -/
def addReplyErrorLength (s : Bytes) : Emit :=
  (if s.head? ≠ some 45 then addReplyProto f slack [45, 69, 82, 82, 32] else skip).andThen <|
    (addReplyProto f slack s).andThen (addReplyProto f slack [13, 10])

/-- A text on one line. -/
def oneLine (s : Bytes) : Bytes := s.map fun b => if b = 13 ∨ b = 10 then 32 else b

/-- `addReplyErrorFormat`, of a formatted text -/
def addReplyErrorFormat (s : Bytes) : Emit := addReplyErrorLength f slack (oneLine s)

/-- The function that announces the length of an aggregate. -/
def addReplyLen : Kind → ℕ → Emit
  | .array => addReplyArrayLen sh f slack
  | .map => addReplyMapLen sh f slack v
  | .set => addReplySetLen sh f slack v
  | .push => addReplyPushLen sh f slack v

/-- `setDeferredAggregateLen` -/
def setDeferredAggregateLen (node : Option ℕ) (length : ℕ) (tag : UInt8) : Emit := fun k =>
  (Networking.setDeferredAggregateLen k.out node length tag (slack k.calls)).map fun out =>
    ⟨out, k.calls + 1⟩

/-- `setDeferredArrayLen` -/
def setDeferredArrayLen (node : Option ℕ) (length : ℕ) : Emit :=
  setDeferredAggregateLen slack node length 42

/-- `setDeferredMapLen` -/
def setDeferredMapLen (node : Option ℕ) (length : ℕ) : Emit :=
  setDeferredAggregateLen slack node (if v = .resp2 then length * 2
    else length) (if v = .resp2 then 42 else 37)

/-- `setDeferredSetLen` -/
def setDeferredSetLen (node : Option ℕ) (length : ℕ) : Emit :=
  setDeferredAggregateLen slack node length (if v = .resp2 then 42 else 126)

/-- `setDeferredPushLen` -/
def setDeferredPushLen (node : Option ℕ) (length : ℕ) : Emit :=
  setDeferredAggregateLen slack node length (if v = .resp2 then 42 else 62)

/-- The function that fills in the length of an aggregate. -/
def setDeferredLen (node : Option ℕ) (length : ℕ) : Kind → Emit
  | .array => setDeferredArrayLen slack node length
  | .map => setDeferredMapLen slack v node length
  | .set => setDeferredSetLen slack v node length
  | .push => setDeferredPushLen slack v node length

/-- An aggregate whose length is filled in when its elements are there. -/
def deferred (length : ℕ) (kind : Kind) (items : Emit) : Emit := fun k =>
  let x := addReplyDeferredLen f k.out k.calls
  (items ⟨x.1, k.calls + 1⟩).bind (setDeferredLen slack v x.2 length kind)

end Emit

/-! ### Trees -/

/-- A reply.  A map has its keys and values in turn, and its length is the number of
pairs. -/
inductive Reply where
  | bulkCBuffer (s : Bytes)
  | bulkSds (s : Bytes)
  | bulkLongLong (ll : ℤ)
  | longLong (ll : ℤ)
  | verbatim (s ext : Bytes)
  | null
  | bool (b : Bool)
  | errorFormat (s : Bytes)
  | aggregate (kind : Kind) (deferred : Bool) (items : List Reply)

/-- The length of an aggregate with a number of elements. -/
def lengthOf (kind : Kind) (n : ℕ) : ℕ :=
  match kind with
  | .map => n / 2
  | _ => n

mutual

/-- The calls for a reply. -/
def Reply.emit : Reply → Emit
  | .bulkCBuffer s => .addReplyBulkCBuffer sh f slack s
  | .bulkSds s => .addReplyBulkSds sh f slack s
  | .bulkLongLong ll => .addReplyBulkLongLong sh f slack ll
  | .longLong ll => .addReplyLongLong sh f slack ll
  | .verbatim s ext => .addReplyVerbatim sh f slack v s ext
  | .null => .addReplyNull f slack v
  | .bool b => .addReplyBool sh f slack v b
  | .errorFormat s => .addReplyErrorFormat f slack s
  | .aggregate kind deferred items =>
    if deferred then .deferred f slack v (lengthOf kind items.length) kind (emitAll items)
    else (Emit.addReplyLen sh f slack v kind (lengthOf kind items.length)).andThen (emitAll items)

/-- The calls for some replies. -/
def Reply.emitAll : List Reply → Emit
  | [] => .skip
  | r :: rs => (Reply.emit r).andThen (emitAll rs)

end

/-- The text of an error. -/
def errorText (s : Bytes) : Bytes :=
  if (Emit.oneLine s).head? = some 45 then (Emit.oneLine s).tail
  else [69, 82, 82, 32] ++ Emit.oneLine s

/-- The kind of aggregate that a version has for one. -/
def kindIn (kind : Kind) : Kind := if v = .resp2 then .array else kind

mutual

/-- The value of a reply.  The old version has only arrays, numbers for truth values and
plain strings. -/
def Reply.value : Reply → Value
  | .bulkCBuffer s => .bulk s
  | .bulkSds s => .bulk s
  | .bulkLongLong ll => .bulk (decimalInt ll)
  | .longLong ll => .integer ll
  | .verbatim s ext => if v = .resp2 then .bulk s else .verbatim (Emit.verbatimExt ext) s
  | .null => .null
  | .bool b => if v = .resp2 then .integer (if b then 1 else 0) else .bool b
  | .errorFormat s => .error (errorText s)
  | .aggregate kind _ items => .aggregate (kindIn v kind) (values items)

def Reply.values : List Reply → List Value
  | [] => []
  | r :: rs => Reply.value r :: values rs

end

mutual

/-- A map has a value for each key. -/
def Reply.Paired : Reply → Prop
  | .aggregate kind _ items => (kind = .map → items.length % 2 = 0) ∧ AllPaired items
  | _ => True

def Reply.AllPaired : List Reply → Prop
  | [] => True
  | r :: rs => Reply.Paired r ∧ AllPaired rs

end

mutual

/-- The same tree with all lengths announced. -/
def Reply.immediate : Reply → Reply
  | .aggregate kind _ items => .aggregate kind false (immediates items)
  | r => r

def Reply.immediates : List Reply → List Reply
  | [] => []
  | r :: rs => Reply.immediate r :: immediates rs

end

/-! ### The bytes of a reply -/

/-- The length that an aggregate with `n` elements announces. -/
def announced (kind : Kind) (n : ℕ) : ℕ :=
  if v = .resp2 ∧ kind = .map then lengthOf kind n * 2 else lengthOf kind n

mutual

/-- The bytes of a reply. -/
def Reply.bytes : Reply → Bytes
  | .bulkCBuffer s => lenstr s.length 36 ++ (s ++ [13, 10])
  | .bulkSds s => lenstr s.length 36 ++ (s ++ [13, 10])
  | .bulkLongLong ll => lenstr (decimalInt ll).length 36 ++ (decimalInt ll ++ [13, 10])
  | .longLong ll => lenstr ll 58
  | .verbatim s ext =>
    if v = .resp2 then lenstr s.length 36 ++ (s ++ [13, 10])
    else lenstr (s.length + 4 : ℕ) 61 ++ (Emit.verbatimExt ext ++ 58 :: s ++ [13, 10])
  | .null => if v = .resp2 then [36, 45, 49, 13, 10] else [95, 13, 10]
  | .bool b =>
    if v = .resp2 then lenstr (if b then 1 else 0) 58 else [35, if b then 116 else 102, 13, 10]
  | .errorFormat s => 45 :: (errorText s ++ [13, 10])
  | .aggregate kind _ items =>
    lenstr (announced v kind items.length) (Tag.aggregate (kindIn v kind)).byte ++
      (bytess items).flatten

def Reply.bytess : List Reply → List Bytes
  | [] => []
  | r :: rs => Reply.bytes r :: bytess rs

end

end

/-! ### Calls -/

/-- The shared objects hold what they are named for. -/
structure Shared.Literal (sh : Shared) : Prop where
  crlf_eq : sh.crlf = [13, 10]
  czero_eq : sh.czero = [58, 48, 13, 10]
  cone_eq : sh.cone = [58, 49, 13, 10]
  mbulkhdr_eq : ∀ n < sh.bulkhdrLen, sh.mbulkhdr n = 42 :: decimal n ++ [13, 10]
  bulkhdr_eq : ∀ n < sh.bulkhdrLen, sh.bulkhdr n = 36 :: decimal n ++ [13, 10]
  ll2string_eq : ∀ n, sh.ll2string n = decimalInt n

/-- The client takes replies. -/
structure ReplyFlags.Takes (f : ReplyFlags) : Prop where
  prepared : prepareClientToWrite f = true
  open_ : f.closeAfterReply = false

/-- The output is well formed, and the next placeholder has an address of its own. -/
structure Sink.Ready (k : Sink) : Prop where
  wf : k.out.Wf
  lt : ∀ n ∈ k.out.holes, n < k.calls

/-- A function puts some bytes at the end of what is pending. -/
def Appends (a : Emit) (s : Bytes) : Prop :=
  ∀ k : Sink, k.Ready → ∃ k', a k = .ok k' ∧ k'.Ready ∧ k.calls ≤ k'.calls ∧
    k'.out.pending = k.out.pending ++ ofList s

section

variable {sh : Shared} {f : ReplyFlags} {slack : ℕ → ℕ} {v : Version} {a b : Emit} {s t : Bytes}

theorem appends_skip : Appends .skip [] := fun k hk => ⟨k, rfl, hk, le_rfl, by simp⟩

theorem Appends.andThen (ha : Appends a s) (hb : Appends b t) : Appends (a.andThen b) (s ++ t) := by
  intro k hk
  obtain ⟨k₁, h₁, hk₁, hle₁, htext₁⟩ := ha k hk
  obtain ⟨k₂, h₂, hk₂, hle₂, htext₂⟩ := hb k₁ hk₁
  refine ⟨k₂, ?_, hk₂, hle₁.trans hle₂, ?_⟩
  · rw [Emit.andThen, h₁]
    exact h₂
  · rw [htext₂, htext₁, ofList_append, List.append_assoc]

theorem Appends.of_eq (h : Appends a s) (heq : s = t) : Appends a t := heq ▸ h

/-- What `Writes` says for a client that takes replies. -/
theorem Sink.Ready.of_writes {k : Sink} {call : ClientCall} {out : Output} (hk : k.Ready)
    (hf : f.Takes) (h : call.Writes f (k.out, []) (out, [])) (hfills : ∀ t, call.fills t = t)
    (hreply : call.reply = ofList s) :
    Sink.Ready ⟨out, k.calls + 1⟩ ∧ out.pending = k.out.pending ++ ofList s := by
  have htext : out.pending = k.out.pending ++ ofList s := by
    have htext := h.text
    rwa [ofList_nil, List.nil_append, List.nil_append, hfills, ClientCall.appended,
      if_neg (by simp [hf.prepared]), if_neg (by simp [hf.open_]), hreply] at htext
  refine ⟨⟨h.wf, fun n hn => ?_⟩, htext⟩
  have hwf : out.Wf := h.wf
  rw [← hwf.holes_pending, htext, holes_append, holes_ofList, List.append_nil, hk.wf.holes_pending]
    at hn
  exact Nat.lt_succ_of_lt (hk.lt n hn)

theorem appends_addReplyProto (hf : f.Takes) (s : Bytes) :
    Appends (.addReplyProto f slack s) s := by
  intro k hk
  have hwrites : (ClientCall.own (.addReplyProto s (slack k.calls))).Writes f (k.out, [])
      (addReplyProto f k.out s (slack k.calls), []) :=
        .addReplyProto (slack k.calls) hk.wf (fun _ => rfl) rfl rfl
  obtain ⟨hready, htext⟩ := hk.of_writes hf hwrites (fun _ => rfl) rfl
  exact ⟨_, rfl, hready, Nat.le_succ _, htext⟩

theorem appends_addReply (hf : f.Takes) (s : Bytes) : Appends (.addReply f slack s) s :=
  appends_addReplyProto hf s

theorem appends_addReplySds (hf : f.Takes) (s : Bytes) : Appends (.addReplySds f slack s) s :=
  appends_addReplyProto hf s

/-! ### Lengths -/

theorem appends_addReplyLongLongWithPrefix (hsh : sh.Literal) (hf : f.Takes) (ll : ℤ)
    (tag : UInt8) :
    Appends (.addReplyLongLongWithPrefix sh f slack ll tag) (lenstr ll tag) := by
  have hnat : 0 ≤ ll → decimalInt ll = decimal ll.toNat := by
    intro hll
    rw [← decimalInt_natCast, Int.toNat_of_nonneg hll]
  rw [Emit.addReplyLongLongWithPrefix, lenstr]
  split_ifs with hmbulk hbulk
  · obtain ⟨rfl, hlt, hll⟩ := hmbulk
    refine (appends_addReply hf _).of_eq ?_
    rw [hsh.mbulkhdr_eq _ (by omega), hnat hll]
  · obtain ⟨rfl, hlt, hll⟩ := hbulk
    refine (appends_addReply hf _).of_eq ?_
    rw [hsh.bulkhdr_eq _ (by omega), hnat hll]
  · refine (appends_addReplyProto hf _).of_eq ?_
    rw [hsh.ll2string_eq]

theorem appends_addReplyLongLong (hsh : sh.Literal) (hf : f.Takes) (ll : ℤ) :
    Appends (.addReplyLongLong sh f slack ll) (lenstr ll 58) := by
  rw [Emit.addReplyLongLong]
  split_ifs with hzero hone
  · subst hzero
    exact (appends_addReply hf _).of_eq (hsh.czero_eq.trans (by decide))
  · subst hone
    exact (appends_addReply hf _).of_eq (hsh.cone_eq.trans (by decide))
  · exact appends_addReplyLongLongWithPrefix hsh hf ll 58

theorem appends_addReplyAggregateLen (hsh : sh.Literal) (hf : f.Takes) (length : ℕ) (tag : UInt8) :
    Appends (.addReplyAggregateLen sh f slack length tag) (lenstr length tag) := by
  rw [Emit.addReplyAggregateLen]
  split_ifs with hmbulk
  · obtain ⟨rfl, hlt⟩ := hmbulk
    refine (appends_addReply hf _).of_eq ?_
    rw [hsh.mbulkhdr_eq length hlt, lenstr, decimalInt_natCast]
  · exact appends_addReplyLongLongWithPrefix hsh hf length tag

/-- All kinds of aggregates announce their length in one way. -/
theorem addReplyLen_eq (kind : Kind) (n : ℕ) :
    Emit.addReplyLen sh f slack v kind (lengthOf kind n) =
      .addReplyAggregateLen sh f slack (announced v kind n)
        (Tag.aggregate (kindIn v kind)).byte := by
  cases v <;> cases kind <;> rfl

theorem appends_addReplyLen (hsh : sh.Literal) (hf : f.Takes) (kind : Kind) (n : ℕ) :
    Appends (.addReplyLen sh f slack v kind (lengthOf kind n))
      (lenstr (announced v kind n) (Tag.aggregate (kindIn v kind)).byte) := by
  rw [addReplyLen_eq]
  exact appends_addReplyAggregateLen hsh hf _ _

/-- The function that fills in a length writes what the other one announces. -/
theorem setDeferredLen_eq (node : Option ℕ) (kind : Kind) (n : ℕ) :
    Emit.setDeferredLen slack v node (lengthOf kind n) kind =
      .setDeferredAggregateLen slack node (announced v kind n)
        (Tag.aggregate (kindIn v kind)).byte := by
  cases v <;> cases kind <;> rfl

/-- A length that is filled in comes before the elements. -/
theorem Appends.deferred (hf : f.Takes) (kind : Kind) (n : ℕ) (h : Appends a s) :
    Appends (.deferred f slack v (lengthOf kind n) kind a)
      (lenstr (announced v kind n) (Tag.aggregate (kindIn v kind)).byte ++ s) := by
  intro k hk
  have hfresh : k.calls ∉ k.out.holes := fun hmem => (hk.lt _ hmem).false
  -- the placeholder
  have hplace : (ClientCall.own (.addReplyDeferredLen k.calls)).Writes f (k.out, [])
      ((addReplyDeferredLen f k.out k.calls).1, []) := .addReplyDeferredLen hk.wf hfresh
  have hnode : (addReplyDeferredLen f k.out k.calls).2 = some k.calls := by
    rw [addReplyDeferredLen, if_neg (by simp [hf.prepared])]
  have htext : (addReplyDeferredLen f k.out k.calls).1.pending
      = k.out.pending ++ [.inr k.calls] := by
    have htext := hplace.text
    rwa [ofList_nil, List.nil_append, List.nil_append, ClientCall.appended,
      if_neg (by simp [hf.prepared]), if_neg (by simp [hf.open_])] at htext
  have hwf : (addReplyDeferredLen f k.out k.calls).1.Wf := hplace.wf
  have hready : Sink.Ready ⟨(addReplyDeferredLen f k.out k.calls).1, k.calls + 1⟩ := by
    refine ⟨hwf, fun m hm => ?_⟩
    rw [← hwf.holes_pending, htext, holes_append, hk.wf.holes_pending, List.mem_append] at hm
    rcases hm with hm | hm
    · exact Nat.lt_succ_of_lt (hk.lt m hm)
    · exact Nat.lt_succ_of_le (List.mem_singleton.mp hm).le
  -- the elements
  obtain ⟨k₁, h₁, hk₁, hle₁, htext₁⟩ := h _ hready
  have hmem : k.calls ∈ k₁.out.holes := by
    rw [← hk₁.wf.holes_pending, htext₁, htext, holes_append, holes_append, holes_hole]
    simp
  -- the length
  obtain ⟨out, hset, hgrows, hsymbols⟩ := setDeferredAggregateLen_spec (announced v kind n)
    (Tag.aggregate (kindIn v kind)).byte (slack k₁.calls) hk₁.wf hmem
  have hwf' : out.Wf := by
    refine hgrows.wf hk₁.wf ?_
    rw [← out.holes_symbols, hsymbols, holes_fill, k₁.out.holes_symbols]
    exact hk₁.wf.nodup.filter _
  have htext' : out.pending = k.out.pending ++
      ofList (lenstr (announced v kind n) (Tag.aggregate (kindIn v kind)).byte ++ s) := by
    have hpending : k.calls ∉ holes k.out.pending := by rwa [hk.wf.holes_pending]
    rw [hgrows.pending_fill hk₁.wf hwf' hsymbols, htext₁, htext, fill_append, fill_append,
      fill_hole_self, fill_of_not_mem _ hpending, fill_ofList, ofList_append, List.append_assoc]
  refine ⟨⟨out, k₁.calls + 1⟩, ?_, ⟨hwf', fun m hm => ?_⟩, ?_, htext'⟩
  · rw [Emit.deferred, hnode, h₁]
    show Emit.setDeferredLen slack v (some k.calls) (lengthOf kind n) kind k₁ = _
    rw [setDeferredLen_eq, Emit.setDeferredAggregateLen, hset]
    rfl
  · have hm : m ∈ out.holes := hm
    rw [← hwf'.holes_pending, htext', holes_append, holes_ofList, List.append_nil,
      hk.wf.holes_pending] at hm
    have hle : k.calls + 1 ≤ k₁.calls := hle₁
    exact (hk.lt m hm).trans_le (show k.calls ≤ k₁.calls + 1 by omega)
  · have hle : k.calls + 1 ≤ k₁.calls := hle₁
    show k.calls ≤ k₁.calls + 1
    omega

/-! ### Replies -/

theorem appends_addReplyBulkCBuffer (hsh : sh.Literal) (hf : f.Takes) (p : Bytes) :
    Appends (.addReplyBulkCBuffer sh f slack p) (lenstr p.length 36 ++ (p ++ [13, 10])) := by
  have hcrlf : Appends (.addReply f slack sh.crlf) [13, 10] :=
    (appends_addReply hf _).of_eq hsh.crlf_eq
  exact (appends_addReplyLongLongWithPrefix hsh hf _ _).andThen
    ((appends_addReplyProto hf p).andThen hcrlf)

theorem appends_addReplyErrorLength (hf : f.Takes) (s : Bytes) :
    Appends (.addReplyErrorLength f slack s)
      ((if s.head? ≠ some 45 then [45, 69, 82, 82, 32] else []) ++ (s ++ [13, 10])) := by
  refine Appends.andThen ?_ ((appends_addReplyProto hf s).andThen (appends_addReplyProto hf _))
  split_ifs
  · exact appends_addReplyProto hf _
  · exact appends_skip

theorem appends_addReplyErrorFormat (hf : f.Takes) (s : Bytes) :
    Appends (.addReplyErrorFormat f slack s) (45 :: (errorText s ++ [13, 10])) := by
  refine (appends_addReplyErrorLength hf _).of_eq ?_
  rw [errorText]
  by_cases hhead : (Emit.oneLine s).head? = some 45
  · obtain ⟨text, htext⟩ := List.head?_eq_some_iff.mp hhead
    rw [if_pos hhead, if_neg (not_not.mpr hhead), htext]
    rfl
  · rw [if_neg hhead, if_pos hhead]
    rfl

mutual

/-- The calls for a reply emit its bytes, however its lengths are produced. -/
theorem Reply.emit_appends (hsh : sh.Literal) (hf : f.Takes) :
    ∀ r : Reply, Appends (r.emit sh f slack v) (r.bytes v)
  | .bulkCBuffer s => by
    rw [Reply.emit, Reply.bytes]
    exact appends_addReplyBulkCBuffer hsh hf s
  | .bulkSds s => by
    rw [Reply.emit, Reply.bytes]
    have hcrlf : Appends (.addReply f slack sh.crlf) [13, 10] :=
      (appends_addReply hf _).of_eq hsh.crlf_eq
    exact (appends_addReplyLongLongWithPrefix hsh hf _ _).andThen
      ((appends_addReplySds hf s).andThen hcrlf)
  | .bulkLongLong ll => by
    rw [Reply.emit, Reply.bytes, Emit.addReplyBulkLongLong, hsh.ll2string_eq]
    exact appends_addReplyBulkCBuffer hsh hf _
  | .longLong ll => by
    rw [Reply.emit, Reply.bytes]
    exact appends_addReplyLongLong hsh hf ll
  | .verbatim s ext => by
    rw [Reply.emit, Reply.bytes, Emit.addReplyVerbatim]
    split_ifs
    · exact appends_addReplyBulkCBuffer hsh hf s
    · refine ((appends_addReplyProto hf _).andThen
        ((appends_addReplyProto hf s).andThen (appends_addReplyProto hf _))).of_eq ?_
      rw [lenstr, decimalInt_natCast]
      simp
  | .null => by
    rw [Reply.emit, Reply.bytes, Emit.addReplyNull]
    split_ifs <;> exact appends_addReplyProto hf _
  | .bool b => by
    rw [Reply.emit, Reply.bytes, Emit.addReplyBool]
    split_ifs with hv hb
    · exact (appends_addReply hf _).of_eq (hsh.cone_eq.trans (by decide))
    · exact (appends_addReply hf _).of_eq (hsh.czero_eq.trans (by decide))
    all_goals exact appends_addReplyProto hf _
  | .errorFormat s => by
    rw [Reply.emit, Reply.bytes]
    exact appends_addReplyErrorFormat hf s
  | .aggregate kind deferred items => by
    rw [Reply.emit, Reply.bytes]
    have hitems := Reply.emitAll_appends hsh hf items
    split_ifs
    · exact hitems.deferred hf kind items.length
    · exact (appends_addReplyLen hsh hf kind items.length).andThen hitems

theorem Reply.emitAll_appends (hsh : sh.Literal) (hf : f.Takes) :
    ∀ rs : List Reply, Appends (Reply.emitAll sh f slack v rs) (Reply.bytess v rs).flatten
  | [] => by
    rw [Reply.emitAll, Reply.bytess]
    exact appends_skip
  | r :: rs => by
    rw [Reply.emitAll, Reply.bytess, List.flatten_cons]
    exact (Reply.emit_appends hsh hf r).andThen (Reply.emitAll_appends hsh hf rs)

end

/-! ### Reading replies -/

theorem natural_decimal (n : ℕ) : natural (decimal n) = some n := by
  rw [natural, if_pos ⟨decimal_ne_nil n, decimal_digit n⟩, ofDigits_decimal]

theorem natural_decimalInt (n : ℕ) : natural (decimalInt n) = some n := by
  rw [decimalInt_natCast, natural_decimal]

theorem integer_decimalInt (n : ℤ) : integer (decimalInt n) = some n := by
  have hnat := natural_decimal n.natAbs
  rw [decimalInt]
  split_ifs with hneg
  · rw [integer, hnat, Option.map_some, Option.some_inj]
    omega
  · have hhead : ∀ line, decimal n.natAbs ≠ 45 :: line := by
      intro line heq
      have hdigit := decimal_digit n.natAbs 45 (heq ▸ List.mem_cons_self)
      exact absurd hdigit (by decide)
    rw [integer.eq_2 _ hhead, hnat, Option.map_some, Option.some_inj]
    omega

theorem clean_decimalInt (n : ℤ) : Clean (decimalInt n) := by
  have hclean := clean_of_natural (natural_decimal n.natAbs)
  rw [decimalInt]
  split_ifs
  · intro b hb
    rcases List.mem_cons.mp hb with rfl | hb
    · decide
    · exact hclean b hb
  · exact hclean

theorem clean_oneLine (s : Bytes) : Clean (Emit.oneLine s) := by
  intro b hb
  obtain ⟨c, -, rfl⟩ := List.mem_map.mp hb
  split_ifs with hc
  · decide
  · exact not_or.mp hc

theorem clean_errorText (s : Bytes) : Clean (errorText s) := by
  have hclean := clean_oneLine s
  rw [errorText]
  split_ifs
  · exact fun b hb => hclean b (List.mem_of_mem_tail hb)
  · intro b hb
    rcases List.mem_append.mp hb with hb | hb
    · exact (show Clean [69, 82, 82, 32] by decide) b hb
    · exact hclean b hb

theorem length_verbatimExt (ext : Bytes) : (Emit.verbatimExt ext).length = 3 := by
  rw [Emit.verbatimExt, List.length_take, List.length_append]
  simp

theorem reads_bulkString (s : Bytes) :
    Reads v (lenstr s.length 36 ++ (s ++ [13, 10])) (.bulk s) := by
  have hreads := reads_bulk (v := v) (natural_decimalInt s.length)
  simpa [lenstr] using hreads

theorem reads_number (n : ℤ) : Reads v (lenstr n 58) (.integer n) :=
  reads_integer (clean_decimalInt n) (integer_decimalInt n)

theorem announced_size (kind : Kind) {n : ℕ} (h : kind = .map → n % 2 = 0) :
    n = (kindIn v kind).size (announced v kind n) := by
  cases v <;> cases kind <;> simp [kindIn, announced, lengthOf, Kind.size] <;> have :=
    h rfl <;> omega

theorem Reply.length_values (rs : List Reply) : (Reply.values v rs).length = rs.length := by
  induction rs with
  | nil => rfl
  | cons r rs ih => exact congrArg (· + 1) ih

mutual

/-- The bytes of a reply are its value. -/
theorem Reply.reads : ∀ r : Reply, r.Paired → Reads v (r.bytes v) (r.value v)
  | .bulkCBuffer s, _ => reads_bulkString s
  | .bulkSds s, _ => reads_bulkString s
  | .bulkLongLong ll, _ => reads_bulkString (decimalInt ll)
  | .longLong ll, _ => reads_number ll
  | .verbatim s ext, _ => by
    rw [Reply.bytes, Reply.value]
    cases v with
    | resp2 => exact reads_bulkString s
    | resp3 =>
      have hreads := reads_verbatim (length_verbatimExt ext) (natural_decimalInt (s.length + 4))
      simpa [lenstr] using hreads
  | .null, _ => by
    cases v
    · exact reads_null_bulk
    · exact reads_null
  | .bool b, _ => by
    cases v
    · exact reads_number _
    · exact reads_bool b
  | .errorFormat s, _ => reads_error (clean_errorText s)
  | .aggregate kind deferred items, h => by
    obtain ⟨heven, hitems⟩ := h
    have hknown : (Tag.aggregate (kindIn v kind)).known v := by cases v <;> rfl
    have hlength : (Reply.values v items).length = (kindIn v kind).size
        (announced v kind items.length) := by
      rw [Reply.length_values]
      exact announced_size kind heven
    have hreads := reads_aggregate hknown (natural_decimalInt (announced v kind items.length))
      hlength
      (Reply.readsAll items hitems)
    rw [Reply.bytes, Reply.value]
    simpa [lenstr] using hreads

theorem Reply.readsAll : ∀ rs : List Reply, Reply.AllPaired rs →
    List.Forall₂ (Reads v) (Reply.bytess v rs) (Reply.values v rs)
  | [], _ => .nil
  | r :: rs, h => .cons (Reply.reads r h.1) (Reply.readsAll rs h.2)

end

mutual

/-- The bytes do not depend on how the lengths are produced. -/
theorem Reply.bytes_immediate : ∀ r : Reply, r.immediate.bytes v = r.bytes v
  | .bulkCBuffer _ | .bulkSds _ | .bulkLongLong _ | .longLong _ | .verbatim _ _ | .null | .bool _ |
      .errorFormat _ => rfl
  | .aggregate kind _ items => by
    have hitems := Reply.bytess_immediates items
    rw [Reply.immediate, Reply.bytes, Reply.bytes, hitems.1, hitems.2]

theorem Reply.bytess_immediates : ∀ rs : List Reply,
    Reply.bytess v (Reply.immediates rs) = Reply.bytess v rs ∧
      (Reply.immediates rs).length = rs.length
  | [] => ⟨rfl, rfl⟩
  | r :: rs => by
    have hrs := Reply.bytess_immediates rs
    exact ⟨congrArg₂ List.cons (Reply.bytes_immediate r) hrs.1, congrArg (· + 1) hrs.2⟩

end

/-- **Every reply is one value.**  The bytes that a tree of replies puts at the end of what
is pending are the same for every way to produce the lengths, and they are one value of
the client's version of RESP: that tree. -/
theorem reply_is_one_value (hsh : sh.Literal) (hf : f.Takes) {r : Reply} (hr : r.Paired) {k : Sink}
    (hk : k.Ready) :
    ∃ bytes, Resp.parse v bytes = some (r.value v) ∧
      ∀ r' : Reply, r'.immediate = r.immediate →
        ∃ k', r'.emit sh f slack v k = .ok k' ∧ k'.out.pending = k.out.pending ++ ofList bytes := by
  refine ⟨r.bytes v, (r.reads hr).parse, fun r' heq => ?_⟩
  have happends : Appends (r'.emit sh f slack v) (r'.bytes v) := r'.emit_appends hsh hf
  obtain ⟨k', hk', -, -, htext⟩ := happends k hk
  refine ⟨k', hk', ?_⟩
  rw [htext, ← r'.bytes_immediate, heq, r.bytes_immediate]

end

/-- The shared objects as they should be, with 32 headers. -/
def literals : Shared where
  crlf := [13, 10]
  czero := [58, 48, 13, 10]
  cone := [58, 49, 13, 10]
  mbulkhdr := fun n => 42 :: decimal n ++ [13, 10]
  bulkhdr := fun n => 36 :: decimal n ++ [13, 10]
  bulkhdrLen := 32
  ll2string := decimalInt

theorem literals_literal : literals.Literal :=
  ⟨rfl, rfl, rfl, fun _ _ => rfl, fun _ _ => rfl, fun _ => rfl⟩

/-- A map from a string with the end of a line in it to an array, with its length filled
in. -/
def nestedReply : Reply :=
  .aggregate .map true [.bulkCBuffer [97, 13, 10], .aggregate .array false [.longLong 1, .null]]

theorem reply_is_one_value_nested :
    ∃ bytes, Resp.parse .resp2 bytes = some (nestedReply.value .resp2) ∧
      ∀ r' : Reply, r'.immediate = nestedReply.immediate →
        ∃ k', r'.emit literals plainFlags (fun _ => 0) .resp2 ⟨.empty, 0⟩ = .ok k' ∧
          k'.out.pending = Output.empty.pending ++ ofList bytes := by
  refine reply_is_one_value literals_literal ⟨rfl, rfl⟩ ?_ ⟨Output.wf_empty, ?_⟩
  · exact ⟨fun _ => rfl, trivial, ⟨nofun, trivial, trivial, trivial⟩, trivial⟩
  · intro n hn
    cases hn

end Networking
