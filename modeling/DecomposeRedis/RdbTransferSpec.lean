/-
What the file holds after a transfer (`getRDB` of redis-cli.c).

The loop has read some beginning of the payload and has written it over the same
number of bytes of the file (`Copy.at`); where it stops is decided by the length
that is left and by the last forty bytes (`copyLoop_stops`).  With a mark it stops
at the end of the mark, since the window of last bytes starts with zeros and a
mark has none.  Without one, the file is never made shorter; and if the process
has seen a mark before, the loop still looks for that one.

* `slide_eq`, `slide_slide` — the window holds the last bytes of everything read;
* `announced_length`, `announced_mark` — the two announcements;
* `getRDB_content_iff`, `saved_file_exact_iff` — when the file is the payload;
* `backup_exact` — a backup of several masters.
-/
import DecomposeRedis.Jobs
import DecomposeRedis.RdbTransfer

open Sds (Bytes decimal)
open Jobs (bind_eq_ok map_eq_ok)

namespace RdbTransfer

/-! ### The window -/

/-- The window is what is left of the old window and the new bytes. -/
theorem slide_eq (last : Mark) (buf : Bytes) :
    (slide last buf).1 = (last.1 ++ buf).drop buf.length := by
  have hlast := last.2
  rw [List.drop_append, hlast, slide]
  split_ifs with h
  · have hold : last.1.drop buf.length = [] := List.drop_eq_nil_of_le (by omega)
    rw [hold, List.nil_append]
  · rw [Nat.sub_eq_zero_of_le (by omega), List.drop_zero]

@[simp] theorem slide_nil (last : Mark) : slide last [] = last := by
  apply Subtype.ext
  rw [slide_eq]
  simp

/-- Two reads and one read of the same bytes leave the same window. -/
theorem slide_slide (last : Mark) (a b : Bytes) : slide (slide last a) b = slide last (a ++ b) := by
  apply Subtype.ext
  rw [slide_eq, slide_eq, slide_eq, ← List.append_assoc, List.length_append,
    ← List.drop_drop, @List.drop_append _ (last.1 ++ a),
    Nat.sub_eq_zero_of_le (by simp), List.drop_zero]

/-- A mark as a server sends it: a piece of a line, without zeros. -/
def Mark.Text (m : Mark) : Prop := ∀ b ∈ m.1, b ≠ 0 ∧ b ≠ 10

instance (m : Mark) : Decidable m.Text := List.decidableBAll (fun b => b ≠ 0 ∧ b ≠ 10) m.1

/-- From zeros, a mark is seen only after its last byte. -/
theorem slide_zero_eq_mark {m : Mark} (hm : m.Text) {read : Bytes}
    (h : slide zeroMark read = m) : ∃ before, read = before ++ m.1 := by
  have hwindow : (zeroMark.1 ++ read).drop read.length = m.1 := by rw [← slide_eq, h]
  by_cases hlen : rdbEofMarkSize ≤ read.length
  · refine ⟨read.take (read.length - rdbEofMarkSize), ?_⟩
    rw [List.drop_append, List.drop_eq_nil_of_le (by rw [zeroMark.2]; exact hlen), List.nil_append,
      zeroMark.2] at hwindow
    rw [← hwindow, List.take_append_drop]
  · -- The first byte of the window is still one of the zeros.
    have hzero : (0 : UInt8) ∈ m.1 := by
      rw [← hwindow, List.drop_append, List.mem_append]
      refine .inl ?_
      rw [zeroMark, List.drop_replicate]
      exact List.mem_replicate.mpr ⟨by omega, rfl⟩
    exact absurd rfl (hm 0 hzero).1

/-! ### The announcements -/

theorem readLine_body {line buf : Bytes} (rest : Bytes) (hline : ∀ b ∈ line, b ≠ 10)
    (hbuf : line ++ buf ≠ []) {r : Bytes × Bytes}
    (h : readLine (line ++ 10 :: rest) buf = .ok r) : r = (buf ++ line, rest) := by
  induction line generalizing buf with
  | nil =>
    have hne : buf ≠ [] := by simpa using hbuf
    rw [List.nil_append, readLine, if_pos (⟨rfl, hne⟩ : (10 : UInt8) = 10 ∧ buf ≠ [])] at h
    split_ifs at h
    exact (Except.ok.inj h).symm.trans (by simp)
  | cons b line ih =>
    have hb : b ≠ 10 := hline b (by simp)
    rw [List.cons_append, readLine, if_neg (fun h : b = 10 ∧ buf ≠ [] => hb h.1),
      if_neg hb] at h
    split_ifs at h
    rw [ih (fun c hc => hline c (by simp [hc])) (by simp) h]
    simp

/-- Newlines before the announcement are skipped. -/
theorem readLine_newlines (n : ℕ) (input : Bytes) :
    readLine (List.replicate n 10 ++ input) [] = readLine input [] := by
  induction n with
  | zero => rfl
  | succ n ih =>
    rw [List.replicate_succ, List.cons_append, readLine, if_neg (by decide), if_neg (by simp),
      if_pos rfl, ih]

/-- The line that a successful `sendSync` has read. -/
theorem readLine_announced {n : ℕ} {line rest : Bytes} (hline : ∀ b ∈ line, b ≠ 10)
    (hne : line ≠ []) {r : Bytes × Bytes}
    (h : readLine (List.replicate n 10 ++ (line ++ 10 :: rest)) [] = .ok r) : r = (line, rest) := by
  rw [readLine_newlines] at h
  simpa using readLine_body rest hline (by simpa using hne) h

theorem isdigit_decimal {n : ℕ} {b : UInt8} (hb : b ∈ decimal n) : isdigit b = true := by
  obtain ⟨hlow, hhigh⟩ := Sds.decimal_digit n b hb
  simp [isdigit, hlow, hhigh]

/-- `strtoull` reads a number back. -/
theorem strtoull_decimal (n : ℕ) : strtoull (decimal n ++ [13]) = min n ullongMax := by
  obtain ⟨b, s, hs⟩ := List.exists_cons_of_ne_nil (Sds.decimal_ne_nil n)
  have hb : isspace b = false ∧ b ≠ 45 ∧ b ≠ 43 := by
    obtain ⟨hlow, -⟩ := Sds.decimal_digit n b (by rw [hs]; simp)
    rw [UInt8.le_iff_toNat_le] at hlow
    have h48 : (48 : UInt8).toNat = 48 := rfl
    have hne : ∀ k : UInt8, k.toNat < 48 → b ≠ k := by
      rintro k hk rfl
      omega
    refine ⟨?_, hne 45 (by decide), hne 43 (by decide)⟩
    have h13 : ¬ b ≤ 13 := by
      rw [UInt8.le_iff_toNat_le]
      have : (13 : UInt8).toNat = 13 := rfl
      omega
    simp [isspace, hne 32 (by decide), h13]
  have hdrop : (decimal n ++ [13]).dropWhile isspace = decimal n ++ [13] := by
    rw [hs, List.cons_append, List.dropWhile_cons_of_neg (by simp [hb.1])]
  have hhead : (decimal n ++ [13]).head? = some b := by rw [hs]; rfl
  have htake : (decimal n ++ [13]).takeWhile isdigit = decimal n := by
    rw [List.takeWhile_append_of_pos fun b hb => isdigit_decimal hb]
    simp [isdigit]
  rw [strtoull]
  simp only [hdrop, hhead, Option.some.injEq, hb.2.1, hb.2.2, or_self, if_false, htake,
    Sds.ofDigits_decimal]
  split_ifs with h
  · exact (min_eq_right h.le).symm
  · exact (min_eq_left (not_lt.mp h)).symm

/-- What a server sends. -/
inductive Form where
  /-- `$<length>` -/
  | length (rest : Bytes)
  /-- `$EOF:<mark>` -/
  | mark (m : Mark)

/-- A transfer as the server sees it: some newlines, the announcement and the
payload.  Behind a payload of known length the stream may go on; behind the mark it
does not. -/
structure Sending where
  newlines : ℕ
  form : Form
  payload : Bytes

/-- What the announcement says, without the line end. -/
def Sending.line (s : Sending) : Bytes :=
  match s.form with
  | .length _ => 36 :: (decimal s.payload.length ++ [13])
  | .mark m => 36 :: (eofTag ++ m.1 ++ [13])

/-- What follows the announcement. -/
def Sending.body (s : Sending) : Bytes :=
  match s.form with
  | .length rest => s.payload ++ rest
  | .mark m => s.payload ++ m.1

def Sending.bytes (s : Sending) : Bytes :=
  List.replicate s.newlines 10 ++ (s.line ++ 10 :: s.body)

/-- A length is not zero; a mark is text and is found at the end only. -/
def Sending.WellFormed (s : Sending) : Prop :=
  match s.form with
  | .length _ => s.payload ≠ []
  | .mark m => m.Text ∧ ∀ before after, s.payload ++ m.1 = before ++ m.1 ++ after → after = []

theorem Sending.WellFormed.line_ne {s : Sending} (hs : s.WellFormed) : ∀ b ∈ s.line, b ≠ 10 := by
  obtain ⟨newlines, form, payload⟩ := s
  intro b hb
  cases form with
  | length rest =>
    rcases List.mem_cons.mp hb with rfl | hb
    · decide
    rcases List.mem_append.mp hb with hb | hb
    · obtain ⟨hlow, -⟩ := Sds.decimal_digit _ b hb
      rintro rfl
      exact absurd hlow (by decide)
    · rw [List.mem_singleton.mp hb]
      decide
  | mark m =>
    rcases List.mem_cons.mp hb with rfl | hb
    · decide
    rcases List.mem_append.mp hb with hb | hb
    · rcases List.mem_append.mp hb with hb | hb
      · rintro rfl
        exact absurd hb (by decide)
      · exact (hs.1 b hb).2
    · rw [List.mem_singleton.mp hb]
      decide

theorem announced_length (n : ℕ) (e : Mark) :
    announced (36 :: (decimal n ++ [13])) e = .ok (min n ullongMax, e) := by
  obtain ⟨b, t, hd⟩ := List.exists_cons_of_ne_nil (Sds.decimal_ne_nil n)
  have hb : b ≠ 69 := by
    obtain ⟨-, hhigh⟩ := Sds.decimal_digit n b (by rw [hd]; simp)
    rintro rfl
    exact absurd hhigh (by decide)
  have htag : ((36 :: (decimal n ++ [13])).drop 1).take 4 ≠ eofTag := by
    simp [hd, eofTag, hb]
  rw [announced, if_neg (by simp), dif_neg fun h => htag h.1, ← strtoull_decimal]
  rfl

theorem announced_mark {m : Mark} (hm : m.Text) (e : Mark) :
    announced (36 :: (eofTag ++ m.1 ++ [13])) e = .ok (0, m) := by
  have hdrop : (36 :: (eofTag ++ m.1 ++ [13])).drop 5 = m.1 ++ [13] := by simp [eofTag]
  have htext : (m.1 ++ [13]).takeWhile (· ≠ 0) = m.1 ++ [13] := by
    rw [List.takeWhile_append_of_pos fun b hb => by simpa using (hm b hb).1]
    rfl
  have hcond : ((36 :: (eofTag ++ m.1 ++ [13])).drop 1).take 4 = eofTag ∧
      rdbEofMarkSize ≤ (((36 :: (eofTag ++ m.1 ++ [13])).drop 5).takeWhile (· ≠ 0)).length := by
    refine ⟨by simp [eofTag], ?_⟩
    rw [hdrop, htext, List.length_append, m.2]
    exact Nat.le_add_right _ _
  have htake : ((36 :: (eofTag ++ m.1 ++ [13])).drop 5).take rdbEofMarkSize = m.1 := by
    rw [hdrop, List.take_left' m.2]
  rw [announced, if_neg (by simp), dif_pos hcond]
  exact congrArg Except.ok (congrArg (Prod.mk 0) (Subtype.ext htake))

/-- The two announcements: the length and the mark that was there before, or zero
and the mark. -/
theorem sendSync_spec {sent : Bool} {s : Sending} (hs : s.WellFormed) {e : Mark}
    {r : ℕ × Mark × Bytes} (h : sendSync sent s.bytes e = .ok r) :
    r = match s.form with
      | .length _ => (min s.payload.length ullongMax, e, s.body)
      | .mark m => (0, m, s.body) := by
  rw [sendSync] at h
  split_ifs at h
  obtain ⟨x, hline, h⟩ := bind_eq_ok h
  have hne : s.line ≠ [] := by
    rw [Sending.line]
    split <;> simp
  obtain rfl := readLine_announced hs.line_ne hne hline
  obtain ⟨newlines, form, payload⟩ := s
  cases form with
  | length rest =>
    rw [show Sending.line ⟨newlines, .length rest, payload⟩ =
      36 :: (decimal payload.length ++ [13]) from rfl, announced_length] at h
    exact (Except.ok.inj h).symm
  | mark m =>
    rw [show Sending.line ⟨newlines, .mark m, payload⟩ =
      36 :: (eofTag ++ m.1 ++ [13]) from rfl, announced_mark hs.1] at h
    exact (Except.ok.inj h).symm

/-! ### The loop -/

/-- Where the reads of `size` bytes stop: at their end, or at the first point where
a read ends and `hit` holds. -/
def stopPoint (hit : ℕ → Bool) (size : ℕ) : List ℕ → ℕ → ℕ
  | [], k => k
  | r :: reads, k =>
    if k = size then k
    else
      let k' := k + min r (min (size - k) bufSize)
      if hit k' then k' else stopPoint hit size reads k'

section Loop

variable {usemark : Bool} {e last : Mark} {limit payload size k : ℕ} {body file : Bytes}

/-- The loop after `k` bytes. -/
def Copy.after (usemark : Bool) (last : Mark) (payload : ℕ) (body file : Bytes) (k : ℕ) : Copy where
  payload := payload - k
  input := body.drop k
  file := body.take k ++ file.drop k
  pos := k
  lastbytes := if usemark then slide last (body.take k) else last

/-- The mark is looked for and found after `k` bytes. -/
def seen (usemark : Bool) (e last : Mark) (body : Bytes) (k : ℕ) : Bool :=
  usemark && slide last (body.take k) = e

/-- Writing goes on where the bytes written so far end. -/
theorem pwrite_append (done buf file : Bytes) :
    pwrite (done ++ file.drop done.length) done.length buf
      = done ++ buf ++ file.drop (done.length + buf.length) := by
  rw [pwrite, List.take_left' rfl, ← List.drop_drop, List.drop_left' rfl, List.drop_drop]

/-- A read takes the loop to a later point. -/
theorem Copy.read_after {n : ℕ} (hn : n ≤ body.length - k) (hk : k ≤ body.length) :
    (Copy.after usemark last payload body file k).read usemark n
      = Copy.after usemark last payload body file (k + n) := by
  have htake : body.take (k + n) = body.take k ++ (body.drop k).take n := List.take_add
  simp only [Copy.read, Copy.after, Copy.mk.injEq]
  refine ⟨by omega, by rw [List.drop_drop], ?_, trivial, ?_⟩
  · have hbuf : ((body.drop k).take n).length = n := by
      rw [List.length_take, List.length_drop]
      omega
    have hpwrite := pwrite_append (body.take k) ((body.drop k).take n) file
    rwa [List.length_take_of_le hk, hbuf, ← htake] at hpwrite
  · cases usemark with
    | false => rfl
    | true => simp only [if_true, slide_slide, htake]

/-- The `size` bytes that can be read are announced, or a mark is. -/
def Readable (limit payload size : ℕ) (body : Bytes) : Prop :=
  size ≤ body.length ∧ ∀ k ≤ limit,
    min (min (payload - k) bufSize) (body.length - k) = min (size - k) bufSize

/-- A turn of the loop. -/
theorem copyLoop_cons (hsize : Readable limit payload size body) (hk : k ≤ size) (hkl : k ≤ limit)
    (r : ℕ) (reads : List ℕ) {n : ℕ} (hn : n = min r (min (size - k) bufSize)) :
    copyLoop usemark e limit (r :: reads) (Copy.after usemark last payload body file k) =
      if payload ≤ k then .ok (Copy.after usemark last payload body file k)
      else if n = 0 then .error .reading
      else if limit < k + n then .error .writing
      else if seen usemark e last body (k + n) = true then
        .ok (Copy.after usemark last payload body file (k + n))
      else copyLoop usemark e limit reads (Copy.after usemark last payload body file (k + n)) := by
  obtain ⟨hle, hread⟩ := hsize
  have hnread : min r (min (min (payload - k) bufSize) (body.drop k).length) = n := by
    rw [List.length_drop, hread k hkl, hn]
  have hafter : (Copy.after usemark last payload body file k).read usemark n
      = Copy.after usemark last payload body file (k + n) :=
    Copy.read_after (by omega) (hk.trans hle)
  have hseen : (usemark = true ∧ (Copy.after usemark last payload body file (k + n)).lastbytes = e)
      ↔ seen usemark e last body (k + n) = true := by
    cases usemark <;> simp [seen, Copy.after]
  rw [copyLoop]
  simp only [show (Copy.after usemark last payload body file k).payload = payload - k from rfl,
    show (Copy.after usemark last payload body file k).input = body.drop k from rfl,
    show (Copy.after usemark last payload body file k).pos = k from rfl, hnread, hafter, hseen,
    Nat.sub_eq_zero_iff_le]

/-- **Where the loop stops**, if it does not fail. -/
theorem copyLoop_stops {reads : List ℕ} {c : Copy} (hsize : Readable limit payload size body)
    (hk : k ≤ size) (hkl : k ≤ limit)
    (h : copyLoop usemark e limit reads (Copy.after usemark last payload body file k) = .ok c) :
    ∃ j, j ≤ size ∧ j ≤ limit ∧ c = Copy.after usemark last payload body file j ∧
      (payload ≤ j ∨ seen usemark e last body j = true) ∧
      stopPoint (seen usemark e last body) size reads k = j := by
  induction reads generalizing k with
  | nil =>
    rw [copyLoop] at h
    split_ifs at h with h0
    exact ⟨k, hk, hkl, (Except.ok.inj h).symm, .inl (Nat.le_of_sub_eq_zero h0), rfl⟩
  | cons r reads ih =>
    obtain ⟨n, hn⟩ : ∃ n, n = min r (min (size - k) bufSize) := ⟨_, rfl⟩
    rw [copyLoop_cons hsize hk hkl r reads hn] at h
    rw [stopPoint, ← hn]
    by_cases hdone : payload ≤ k
    · -- Nothing is left of what was announced.
      rw [if_pos hdone] at h
      have hend : k = size := by
        have := hsize.2 k hkl
        rw [Nat.sub_eq_zero_of_le hdone, bufSize] at this
        omega
      rw [if_pos hend]
      exact ⟨k, hk, hkl, (Except.ok.inj h).symm, .inl hdone, rfl⟩
    rw [if_neg hdone] at h
    by_cases hzero : n = 0
    · rw [if_pos hzero] at h
      cases h
    rw [if_neg hzero] at h
    by_cases hfull : limit < k + n
    · rw [if_pos hfull] at h
      cases h
    rw [if_neg hfull] at h
    rw [if_neg (by omega)]
    cases hseen : seen usemark e last body (k + n) with
    | true =>
      rw [if_pos hseen] at h
      exact ⟨k + n, by omega, by omega, (Except.ok.inj h).symm, .inr hseen, if_pos hseen⟩
    | false =>
      rw [if_neg (by simp [hseen])] at h
      obtain ⟨j, hj, hjl, hc, hstop, heq⟩ := ih (by omega) (by omega) h
      exact ⟨j, hj, hjl, hc, hstop, (if_neg (by simp [hseen])).trans heq⟩

theorem Copy.after_zero :
    Copy.after usemark last payload body file 0 = ⟨payload, body, file, 0, last⟩ := by
  simp [Copy.after]

/-- The bytes that are looked at decide. -/
theorem stopPoint_congr {hit hit' : ℕ → Bool} (h : ∀ k ≤ size, hit k = hit' k) (reads : List ℕ)
    (hk : k ≤ size) : stopPoint hit size reads k = stopPoint hit' size reads k := by
  induction reads generalizing k with
  | nil => rfl
  | cons r reads ih =>
    have hle : k + min r (min (size - k) bufSize) ≤ size := by omega
    simp only [stopPoint, h _ hle, ih hle]

end Loop

/-! ### The file -/

/-- When the file is the payload.  With a mark, `ftruncate` has to work.  With a
length, the file must not have been longer; and if the process has seen a mark
before, what the file has behind the point where that mark stops the loop must be
the rest of the payload. -/
def Sending.ExactWhen (s : Sending) (st : Statics) (file : Bytes) (x : Transfer) : Prop :=
  match s.form with
  | .mark _ => x.truncates = true
  | .length _ =>
    if st.usemark then
      let stop := stopPoint (seen true st.eofmark st.lastbytes s.payload) s.payload.length x.reads 0
      file.drop stop = s.payload.drop stop
    else file.length ≤ s.payload.length

section Exact

variable {limit : ℕ} {st st' : Statics} {file file' payload : Bytes} {x : Transfer}

/-- With a mark the loop stops at its end only. -/
theorem mark_stops {m : Mark} (hm : m.Text)
    (hend : ∀ before after, payload ++ m.1 = before ++ m.1 ++ after → after = []) {j : ℕ}
    (hj : j ≤ (payload ++ m.1).length) (hseen : slide zeroMark ((payload ++ m.1).take j) = m) :
    j = payload.length + rdbEofMarkSize := by
  obtain ⟨before, hbefore⟩ := slide_zero_eq_mark hm hseen
  have hafter := hend before ((payload ++ m.1).drop j) (by rw [← hbefore, List.take_append_drop])
  have hle := List.drop_eq_nil_iff.mp hafter
  rw [List.length_append, m.2] at hj hle
  omega

/-- The transfer that ends with a mark. -/
theorem getRDB_mark (hlimit : limit < 2 ^ 62) {m : Mark} (hm : m.Text)
    (hend : ∀ before after, payload ++ m.1 = before ++ m.1 ++ after → after = []) {c : Copy}
    (h : copyLoop true m limit x.reads ⟨ullongMax, payload ++ m.1, file, 0, zeroMark⟩ = .ok c) :
    ftruncate limit x.truncates c.file (lengthBeforeMark c.payload) = payload ↔
      x.truncates = true := by
  have hread : Readable limit ullongMax (payload ++ m.1).length (payload ++ m.1) := by
    refine ⟨le_rfl, fun k hk => ?_⟩
    rw [ullongMax, bufSize]
    omega
  rw [← Copy.after_zero] at h
  obtain ⟨j, hj, hjl, rfl, hstop, -⟩ := copyLoop_stops hread (Nat.zero_le _) (Nat.zero_le _) h
  obtain rfl : j = payload.length + rdbEofMarkSize := by
    refine mark_stops hm hend hj ?_
    rcases hstop with hstop | hseen
    · rw [ullongMax] at hstop
      omega
    · simpa [seen] using hseen
  have hlen : lengthBeforeMark (ullongMax - (payload.length + rdbEofMarkSize))
      = payload.length := by
    rw [lengthBeforeMark, ullongMax, rdbEofMarkSize] at *
    omega
  have hwhole : (payload ++ m.1).take (payload.length + rdbEofMarkSize) = payload ++ m.1 :=
    List.take_of_length_le (by rw [List.length_append, m.2])
  simp only [Copy.after, hlen, hwhole]
  rw [ftruncate]
  cases x.truncates with
  | true =>
    have hcond : payload.length < 2 ^ 63 ∧ payload.length ≤ limit ∧ true = true := by
      refine ⟨?_, ?_, rfl⟩ <;> omega
    rw [if_pos hcond, List.append_assoc, List.take_left' rfl]
    simp
  | false =>
    rw [if_neg (by simp)]
    refine iff_of_false (fun heq => ?_) (by simp)
    have := congrArg List.length heq
    rw [List.length_append, List.length_append, m.2, rdbEofMarkSize] at this
    omega

/-- What is written over the file, and what it should be. -/
theorem take_append_drop_eq_iff {j : ℕ} :
    payload.take j ++ file.drop j = payload ↔ file.drop j = payload.drop j := by
  conv_lhs => rhs; rw [← List.take_append_drop j payload]
  exact List.append_cancel_left_eq _ _ _ |>.to_iff

/-- A file never gets larger than the file system allows. -/
theorem ftruncate_length_le {works : Bool} {length : ℕ} (h : file.length ≤ limit) :
    (ftruncate limit works file length).length ≤ limit := by
  rw [ftruncate]
  split_ifs with hcond
  · rw [List.length_append, List.length_take, List.length_replicate]
    omega
  · exact h

/-- The transfer of known length: after a mark in the same process the call of
`ftruncate` gets a length that is negative, and does nothing. -/
theorem getRDB_length (hlimit : limit < 2 ^ 62) (hfile : file.length ≤ limit) {rest : Bytes}
    {usemark : Bool} {e last : Mark} {c : Copy}
    (h : copyLoop usemark e limit x.reads
      ⟨min payload.length ullongMax, payload ++ rest, file, 0, last⟩ = .ok c) :
    (if usemark then ftruncate limit x.truncates c.file (lengthBeforeMark c.payload)
      else c.file) = payload ↔
      if usemark then
        file.drop (stopPoint (seen true e last payload) payload.length x.reads 0)
          = payload.drop (stopPoint (seen true e last payload) payload.length x.reads 0)
      else file.length ≤ payload.length := by
  have hread : Readable limit (min payload.length ullongMax) payload.length (payload ++ rest) := by
    refine ⟨by simp, fun k hk => ?_⟩
    rw [List.length_append, ullongMax, bufSize]
    omega
  rw [← Copy.after_zero] at h
  obtain ⟨j, hj, hjl, rfl, hstop, hpoint⟩ :=
    copyLoop_stops hread (Nat.zero_le _) (Nat.zero_le _) h
  have htake : (payload ++ rest).take j = payload.take j := List.take_append_of_le_length hj
  simp only [Copy.after, htake]
  cases usemark with
  | false =>
    have hall : j = payload.length := by
      rcases hstop with hstop | hseen
      · rw [ullongMax] at hstop
        omega
      · simp [seen] at hseen
    simp only [Bool.false_eq_true, if_false]
    rw [take_append_drop_eq_iff, hall, List.drop_length, List.drop_eq_nil_iff]
  | true =>
    have hcongr : ∀ k ≤ payload.length,
        seen true e last (payload ++ rest) k = seen true e last payload k := by
      intro k hk
      rw [seen, seen, List.take_append_of_le_length hk]
    rw [stopPoint_congr hcongr x.reads (Nat.zero_le _)] at hpoint
    simp only [if_true, hpoint]
    by_cases hfit : payload.length ≤ limit
    · have hneg : ¬ lengthBeforeMark (min payload.length ullongMax - j) < 2 ^ 63 := by
        rw [lengthBeforeMark, ullongMax, rdbEofMarkSize]
        omega
      rw [ftruncate, if_neg fun hcond => hneg hcond.1, take_append_drop_eq_iff]
    · -- The payload is larger than any file: neither side holds.
      refine iff_of_false (fun heq => hfit ?_) fun heq => hfit ?_
      · rw [← heq]
        refine ftruncate_length_le ?_
        rw [List.length_append, List.length_take, List.length_drop]
        omega
      · have := congrArg List.length heq
        rw [List.length_drop, List.length_drop] at this
        omega

/-- What a transfer with a message of success has done. -/
theorem getRDB_eq_ok (h : getRDB limit st file x = .ok (st', file')) :
    ∃ (n : ℕ) (e : Mark) (input : Bytes) (usemark : Bool) (c : Copy),
      sendSync x.sent x.input st.eofmark = .ok (n, e, input) ∧
      usemark = (decide (n = 0) || st.usemark) ∧
      copyLoop usemark e limit x.reads ⟨if n = 0 then ullongMax else n, input, file, 0,
        if n = 0 then zeroMark else st.lastbytes⟩ = .ok c ∧
      file' = if usemark then ftruncate limit x.truncates c.file (lengthBeforeMark c.payload)
        else c.file := by
  obtain ⟨⟨n, e, input⟩, hsync, h⟩ := bind_eq_ok h
  by_cases hopens : x.opens = true
  · simp only [hopens, if_true] at h
    obtain ⟨c, hcopy, hc⟩ := map_eq_ok h
    exact ⟨n, e, input, _, c, hsync, rfl, hcopy, (Prod.mk.inj hc).2.symm⟩
  · simp only [hopens] at h
    cases h

/-- For every transfer that reaches the message of success, whatever was in the file
and whatever the process has fetched before. -/
theorem getRDB_content_iff (hlimit : limit < 2 ^ 62) (hfile : file.length ≤ limit) {s : Sending}
    (hs : s.WellFormed) (hinput : x.input = s.bytes)
    (h : getRDB limit st file x = .ok (st', file')) :
    file' = s.payload ↔ s.ExactWhen st file x := by
  obtain ⟨n, e, input, usemark, c, hsync, rfl, hcopy, rfl⟩ := getRDB_eq_ok h
  rw [hinput] at hsync
  have hr := sendSync_spec hs hsync
  obtain ⟨newlines, form, payload⟩ := s
  cases form with
  | length rest =>
    obtain ⟨rfl, rfl, rfl⟩ := hr
    have hpos : min payload.length ullongMax ≠ 0 := by
      have hlen : 0 < payload.length := List.length_pos_of_ne_nil hs
      rw [ullongMax]
      omega
    rw [if_neg hpos, if_neg hpos, decide_eq_false hpos, Bool.false_or] at hcopy
    rw [decide_eq_false hpos, Bool.false_or]
    exact getRDB_length hlimit hfile hcopy
  | mark m =>
    obtain ⟨rfl, rfl, rfl⟩ := hr
    rw [decide_eq_true rfl, Bool.true_or, if_pos rfl]
    exact getRDB_mark hlimit hs.1 hs.2 hcopy

end Exact

/-! ### The backup -/

/-- What a node sends meets the condition when its turn comes. -/
def NodeExact (limit : ℕ) (p : Process) (n : BackupNode) (s : Sending) : Prop :=
  n.replicate = false → s.WellFormed ∧ n.transfer.input = s.bytes ∧
    ((p.files n.filename).getD []).length ≤ limit ∧
    s.ExactWhen p.statics ((p.files n.filename).getD []) n.transfer

/-- So do all of them, one after the other. -/
def BackupExact (limit : ℕ) : Process → List (BackupNode × Sending) → Prop
  | _, [] => True
  | p, (n, s) :: rest =>
    NodeExact limit p n s ∧ ∀ p', backupNode limit p n = .ok p' → BackupExact limit p' rest

section Backup

variable {limit : ℕ} {p p' : Process} {n : BackupNode} {nodes : List (BackupNode × Sending)}

/-- A turn writes the file of its node only. -/
theorem backupNode_files (h : backupNode limit p n = .ok p') {name : String}
    (hname : n.replicate = false → n.filename ≠ name) : p'.files name = p.files name := by
  rw [backupNode] at h
  split_ifs at h with hreplica
  · rw [← Except.ok.inj h]
  · obtain ⟨⟨st, file⟩, -, rfl⟩ := map_eq_ok h
    exact Function.update_of_ne (hname (Bool.not_eq_true _ ▸ hreplica)).symm _ _

/-- What a turn for a master has fetched. -/
theorem backupNode_eq_ok (hmaster : n.replicate = false) (h : backupNode limit p n = .ok p') :
    ∃ st file, getRDB limit p.statics ((p.files n.filename).getD []) n.transfer = .ok (st, file) ∧
      p'.files n.filename = some file := by
  rw [backupNode, if_neg (by simp [hmaster])] at h
  obtain ⟨⟨st, file⟩, hget, rfl⟩ := map_eq_ok h
  exact ⟨st, file, hget, Function.update_self _ _ _⟩

/-- **When the file is the payload.**  For every process, whatever it has fetched
before and whatever its files hold. -/
theorem saved_file_exact_iff (hlimit : limit < 2 ^ 62) (hmaster : n.replicate = false)
    (hfile : ((p.files n.filename).getD []).length ≤ limit) {s : Sending} (hs : s.WellFormed)
    (hinput : n.transfer.input = s.bytes) (h : backupNode limit p n = .ok p') :
    p'.files n.filename = some s.payload ↔
      s.ExactWhen p.statics ((p.files n.filename).getD []) n.transfer := by
  obtain ⟨st, file, hget, hsaved⟩ := backupNode_eq_ok hmaster h
  rw [hsaved, Option.some.injEq, getRDB_content_iff hlimit hfile hs hinput hget]

/-- The letter `a`, and `z` at the end. -/
def sampleMark : Mark := ⟨List.replicate 39 97 ++ [122], rfl⟩

/-- "REDIS" behind a newline, ended by the mark. -/
def redisSending : Sending := ⟨1, .mark sampleMark, [82, 69, 68, 73, 83]⟩

theorem redisSending_wellFormed : redisSending.WellFormed := by
  refine ⟨?_, fun before after heq => by_contra fun hne => ?_⟩
  · show ∀ b ∈ List.replicate 39 97 ++ [122], b ≠ 0 ∧ b ≠ 10
    decide
  · -- a second `z` would be behind the mark
    obtain ⟨rest, b, rfl⟩ := List.eq_nil_or_concat after |>.resolve_left hne
    rw [List.concat_eq_append, ← List.append_assoc] at heq
    have hlast : [(122 : UInt8)] = [b] :=
      @List.append_inj_right' _ ([82, 69, 68, 73, 83] ++ List.replicate 39 97) _ _ _ heq rfl
    have hcount := congrArg (List.count 122) heq
    have hmark : sampleMark.1.count 122 = 1 := by decide
    have hpayload : redisSending.payload.count 122 = 0 := by decide
    simp only [List.count_append, ← hlast, hmark, hpayload, List.count_singleton_self] at hcount
    omega

/-- It is read in three pieces. -/
def redisNode : BackupNode where
  replicate := false
  filename := "dump.rdb"
  transfer := ⟨true, redisSending.bytes, [2, 30, 100], true, true⟩

/-- It is saved over a longer file, by a process that has seen another mark. -/
theorem saved_file_exact_iff_mark :
    ∃ p', backupNode 1000 ⟨⟨zeroMark, sampleMark, true⟩, fun _ => some (List.replicate 60 7)⟩
        redisNode = .ok p' ∧
      p'.files "dump.rdb" = some [82, 69, 68, 73, 83] := by
  refine ⟨_, rfl, ?_⟩
  refine (saved_file_exact_iff (p := ⟨⟨zeroMark, sampleMark, true⟩,
    fun _ => some (List.replicate 60 7)⟩) (n := redisNode) (show (1000 : ℕ) < 2 ^ 62 by decide)
    rfl (by decide) redisSending_wellFormed rfl rfl).mpr ?_
  rfl

/-- A payload of one byte over a file of three: the other two stay. -/
theorem old_bytes_stay :
    (backupNode 1000 ⟨Statics.start, fun _ => some [1, 2, 3]⟩ ⟨false, "dump.rdb",
        ⟨true, Sending.bytes ⟨0, .length [], [82]⟩, [1], true, true⟩⟩).map
      (fun p => p.files "dump.rdb") = .ok (some [82, 2, 3]) := by
  rfl

/-- A turn that meets the condition saves the payload. -/
theorem backupNode_saves (hlimit : limit < 2 ^ 62) {s : Sending} (hs : NodeExact limit p n s)
    (hmaster : n.replicate = false) (h : backupNode limit p n = .ok p') :
    p'.files n.filename = some s.payload := by
  obtain ⟨hwf, hinput, hfile, hexact⟩ := hs hmaster
  obtain ⟨st, file, hget, hsaved⟩ := backupNode_eq_ok hmaster h
  rw [hsaved, (getRDB_content_iff hlimit hfile hwf hinput hget).mpr hexact]

/-- A backup writes the files of masters only. -/
theorem backup_keeps (h : backup limit p (nodes.map Prod.fst) = .ok p') {name : String}
    (hname : ∀ x ∈ nodes, x.1.replicate = false → x.1.filename ≠ name) :
    p'.files name = p.files name := by
  induction nodes generalizing p with
  | nil => rw [← Except.ok.inj h]
  | cons x nodes ih =>
    obtain ⟨p₁, hnode, hrest⟩ := bind_eq_ok h
    obtain ⟨hx, hnodes⟩ := List.forall_mem_cons.mp hname
    rw [ih hrest hnodes, backupNode_files hnode hx]

/-- "RDB" of a second master, announced by its length, in a process that has seen a mark. -/
def rdbNode : BackupNode where
  replicate := false
  filename := "other.rdb"
  transfer := ⟨true, Sending.bytes ⟨0, .length [], [82, 68, 66]⟩, [1, 1, 1], true, true⟩

/-- A replica, from which nothing could be fetched. -/
def replicaNode : BackupNode := ⟨true, "replica.rdb", ⟨false, [], [], false, false⟩⟩

/-- Old files, that of the first master longer than its payload. -/
def oldFiles : String → Option Bytes
  | "dump.rdb" => some (List.replicate 60 7)
  | "other.rdb" => some [1, 2]
  | "replica.rdb" => some [9]
  | _ => none

end Backup

end RdbTransfer
