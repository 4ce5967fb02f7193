/-
Dynamic strings with headers refine byte strings.

`Holds s c` says that `s` is a string with content `c`: its header type is one whose
fields hold the length and the capacity, the bytes are the content, a zero byte and the
rest of the allocation, and the capacity is at least the length and at most what is
allocated.

* `setLen_holds` — a new length over bytes that are written already;
* `makeRoom_spec` — `sdsMakeRoomFor` makes room and keeps the content, whatever the
  header types before and after are;
* `step_refines` — every call within its bounds does to the content what `spec` says, with
  one exception;
* `strings_refine_iff` — a run of such calls is defined, and then refines byte strings, if
  and only if it does not call `sdsIncrLen` with zero on a string with a header of type 5,
  where an assertion fails.
-/
import DecomposeRedis.SdsHeader
import DecomposeRedis.Runs

namespace SdsHeader

open Function

variable {s s' : Str} {t : SdsType} {n i : ℕ} {c x y rest buf junk : Bytes} {incr : ℤ}

/-! ### Header fields -/

theorem type_setlen (s : Str) (n : ℕ) : (sdssetlen s n).type = s.type := by
  unfold sdssetlen
  split
  · rename_i h
    rw [h, Str.type, SdsType.ofFlags, show n * 8 % 256 % 8 = 0 by omega]
    rfl
  · rfl
  · rfl

theorem type_setalloc (s : Str) (n : ℕ) : (sdssetalloc s n).type = s.type := by
  unfold sdssetalloc
  split <;> rfl

@[simp] theorem buf_setlen (s : Str) (n : ℕ) : (sdssetlen s n).buf = s.buf := by
  unfold sdssetlen
  split <;> rfl

@[simp] theorem buf_setalloc (s : Str) (n : ℕ) : (sdssetalloc s n).buf = s.buf := by
  unfold sdssetalloc
  split <;> rfl

theorem type_code (t : SdsType) : SdsType.ofFlags t.code = some t := by
  cases t <;> rfl

theorem sdslen_setlen (ht : s.type = some t) (hn : n < 2 ^ t.width) :
    sdslen (sdssetlen s n) = n := by
  have htype := type_setlen s n
  cases t with
  | t5 =>
    have hn : n < 32 := hn
    simp only [sdslen, htype]
    simp only [sdssetlen, ht]
    omega
  | t8 | t16 | t32 | t64 =>
    simp only [sdslen, htype]
    simp only [sdssetlen, ht, Nat.mod_eq_of_lt hn]

theorem sdsalloc_setlen (ht : s.type = some t) (h5 : t ≠ .t5) :
    sdsalloc (sdssetlen s n) = sdsalloc s := by
  have htype := type_setlen s n
  cases t with
  | t5 => exact absurd rfl h5
  | t8 | t16 | t32 | t64 =>
    simp only [sdsalloc, htype, ht]
    simp only [sdssetlen, ht]

/-- A header of type 5 has no capacity of its own. -/
theorem sdsalloc_t5 (ht : s.type = some .t5) : sdsalloc s = sdslen s := by
  simp only [sdsalloc, sdslen, ht]

theorem sdslen_setalloc (s : Str) (n : ℕ) : sdslen (sdssetalloc s n) = sdslen s := by
  simp only [sdslen, type_setalloc]
  unfold sdssetalloc
  split <;> simp_all

theorem sdsalloc_setalloc (ht : s.type = some t) (h5 : t ≠ .t5) (hn : n < 2 ^ t.width) :
    sdsalloc (sdssetalloc s n) = n := by
  have htype := type_setalloc s n
  cases t with
  | t5 => exact absurd rfl h5
  | t8 | t16 | t32 | t64 =>
    simp only [sdsalloc, htype]
    simp only [sdssetalloc, ht, Nat.mod_eq_of_lt hn]

theorem lt_sdsReqType (hn : n < 2 ^ 64) : n < 2 ^ (sdsReqType n).width := by
  unfold sdsReqType
  split_ifs <;> simp_all [SdsType.width]

/-! ### Strings with a content -/

/-- A string with its content. -/
structure Holds (s : Str) (c : Bytes) : Prop where
  type : ∃ t, s.type = some t ∧ c.length < 2 ^ t.width ∧ sdsalloc s < 2 ^ t.width
  len : sdslen s = c.length
  le : c.length ≤ sdsalloc s
  buf : ∃ rest, s.buf = c ++ 0 :: rest ∧ sdsalloc s ≤ c.length + rest.length

/-- The announced room is what the capacity leaves. -/
theorem Holds.avail (h : Holds s c) : sdsavail s = sdsalloc s - sdslen s := by
  obtain ⟨t, ht, hlen, halloc⟩ := h.type
  have hle := h.le
  have hl := h.len
  rw [← hl] at hle hlen
  cases t with
  | t5 => rw [sdsalloc_t5 ht, Nat.sub_self, sdsavail, ht]
  | t32 =>
    simp only [sdsavail, sdsalloc, sdslen, ht, SdsType.width] at hle hlen halloc ⊢
    omega
  | t8 | t16 | t64 =>
    simp only [sdsavail, sdsalloc, sdslen, ht, SdsType.width, sizeT] at hle hlen halloc ⊢
    omega

theorem Holds.buf_le (h : Holds s c) : sdsalloc s < s.buf.length := by
  obtain ⟨rest, hbuf, hle⟩ := h.buf
  rw [hbuf, List.length_append, List.length_cons]
  omega

theorem write_append (hx : x.length ≤ buf.length) :
    write (c ++ buf) c.length x = some (c ++ (x ++ buf.drop x.length)) := by
  rw [write, if_pos (by simpa using hx), List.take_left, ← List.drop_drop, List.drop_left]

theorem Str.write_append (hs : s.buf = c ++ buf) (hx : x.length ≤ buf.length) :
    s.write c.length x = some { s with buf := c ++ (x ++ buf.drop x.length) } := by
  rw [Str.write, hs, SdsHeader.write_append hx]
  rfl

theorem read_append (x rest : Bytes) : read (x ++ rest) 0 x.length = some x := by
  rw [read, if_pos (by simp), List.drop_zero, List.take_left]

/-- The header and the bytes are written in any order. -/
theorem write_setlen (s : Str) (n i : ℕ) (x : Bytes) :
    (sdssetlen s n).write i x = (s.write i x).map fun s => sdssetlen s n := by
  rw [Str.write, Str.write, buf_setlen, Option.map_map]
  congr 1
  funext b
  show _ = sdssetlen { s with buf := b } n
  have htype : ({ s with buf := b } : Str).type = s.type := rfl
  rw [sdssetlen, sdssetlen, htype]
  cases hs : s.type with
  | none => rfl
  | some t => cases t <;> rfl

/-- The length is set over bytes that are there. -/
theorem setLen_holds (ht : s.type = some t) (halloc : sdsalloc s < 2 ^ t.width)
    (hc : c.length ≤ sdsalloc s) (hbuf : s.buf = c ++ 0 :: rest)
    (hroom : sdsalloc s < s.buf.length) :
    Holds (sdssetlen s c.length) c := by
  have hlen : c.length < 2 ^ t.width := Nat.lt_of_le_of_lt hc halloc
  have htype : (sdssetlen s c.length).type = some t := by rw [type_setlen, ht]
  have hsetlen := sdslen_setlen ht hlen
  have hrest : sdsalloc s ≤ c.length + rest.length := by
    rw [hbuf, List.length_append, List.length_cons] at hroom
    omega
  by_cases h5 : t = .t5
  · subst h5
    have hsetalloc : sdsalloc (sdssetlen s c.length) = c.length := by
      rw [sdsalloc_t5 htype, hsetlen]
    refine ⟨⟨.t5, htype, hlen, by rw [hsetalloc]; exact hlen⟩, hsetlen, by rw [hsetalloc],
      rest, ?_, ?_⟩
    · rw [buf_setlen, hbuf]
    · rw [hsetalloc]
      exact Nat.le_add_right _ _
  · have hsetalloc : sdsalloc (sdssetlen s c.length) = sdsalloc s := sdsalloc_setlen ht h5
    refine ⟨⟨t, htype, hlen, by rw [hsetalloc]; exact halloc⟩, hsetlen, by rw [hsetalloc]; exact hc,
      rest, ?_, ?_⟩
    · rw [buf_setlen, hbuf]
    · rw [hsetalloc]
      exact hrest

/-- The string is ended behind bytes that are there. -/
theorem terminate_holds (ht : s.type = some t) (halloc : sdsalloc s < 2 ^ t.width)
    (hc : c.length ≤ sdsalloc s) (hbuf : s.buf = c ++ rest) (hroom : sdsalloc s < s.buf.length) :
    ∃ s', (s.write c.length [0]).map (fun s => sdssetlen s c.length) = some s' ∧ Holds s' c := by
  have hrest : ([0] : Bytes).length ≤ rest.length := by
    rw [hbuf, List.length_append] at hroom
    show 1 ≤ rest.length
    omega
  rw [Str.write_append hbuf hrest]
  refine ⟨_, rfl, setLen_holds (t := t) ht halloc hc rfl ?_⟩
  show sdsalloc s < (c ++ ([0] ++ rest.drop 1)).length
  rw [hbuf, List.length_append] at hroom
  simp
  omega

theorem length_fresh (junk : Bytes) (n : ℕ) : (fresh junk n).length = n := by
  simp [fresh]

/-- A new header that is large enough for a capacity. -/
theorem setAlloc_holds (ht : s.type = some t) (h5 : t ≠ .t5) (hlen : sdslen s = c.length)
    (hn : n < 2 ^ t.width) (hc : c.length ≤ n) (hbuf : s.buf = c ++ 0 :: rest)
    (hrest : rest.length = n - c.length) :
    Holds (sdssetalloc s n) c := by
  have hsetalloc := sdsalloc_setalloc ht h5 hn
  refine ⟨⟨t, by rw [type_setalloc, ht], Nat.lt_of_le_of_lt hc hn, by rwa [hsetalloc]⟩, ?_,
    by rwa [hsetalloc], rest, by rw [buf_setalloc, hbuf], ?_⟩
  · rw [sdslen_setalloc, hlen]
  · rw [hsetalloc, hrest]
    omega

/-- The string in a new allocation. -/
theorem move_spec (t : SdsType) (hbuf : s.buf = c ++ 0 :: rest) (hc : c.length < 2 ^ t.width)
    (hn : c.length ≤ n) :
    ∃ s' rest', move junk s t c.length n = some s' ∧ s'.type = some t ∧ sdslen s' = c.length ∧
      s'.buf = c ++ 0 :: rest' ∧ rest'.length = n - c.length := by
  have hread : read s.buf 0 (c.length + 1) = some (c ++ [0]) := by
    have hsplit : s.buf = (c ++ [0]) ++ rest := by simp [hbuf]
    have hlen : (c ++ [0]).length = c.length + 1 := by simp
    rw [hsplit, ← hlen, read_append]
  have hlength : (s_malloc junk (sdsHdrSize t + n + 1) (sdsHdrSize t)).length = n + 1 := by
    rw [s_malloc, length_fresh]
    omega
  rw [move, hread, Option.bind_some]
  generalize s_malloc junk (sdsHdrSize t + n + 1) (sdsHdrSize t) = new at hlength
  -- the new memory is the part that is copied to and the rest
  have hwrite : write new 0 (c ++ [0]) = some ((c ++ [0]) ++ new.drop (c.length + 1)) := by
    have happend := @write_append [] (c ++ [0]) new (by
      rw [List.length_append, List.length_singleton]
      omega)
    rwa [List.length_append] at happend
  rw [hwrite]
  have htype : (⟨t.code, 0, 0, (c ++ [0]) ++ new.drop (c.length + 1)⟩ : Str).type = some t :=
    type_code t
  refine ⟨_, new.drop (c.length + 1), rfl, by rw [type_setlen, htype], sdslen_setlen htype hc,
    by simp, ?_⟩
  rw [List.length_drop]
  omega

/-- The string in its own allocation, made larger or smaller. -/
theorem realloc_spec (hdrlen : ℕ) (hc : c.length ≤ n) :
    ∃ rest', s_realloc junk (c ++ 0 :: rest) (hdrlen + n + 1) hdrlen = c ++ 0 :: rest' ∧
      rest'.length = n - c.length := by
  have hsize : hdrlen + n + 1 - hdrlen = n + 1 := by omega
  rw [s_realloc, hsize]
  have htake : (c ++ 0 :: rest).take (n + 1) = c ++ 0 :: rest.take (n - c.length) := by
    rw [List.take_append, List.take_of_length_le (by omega),
      show n + 1 - c.length = n - c.length + 1 by omega, List.take_succ_cons]
  rw [htake]
  refine ⟨rest.take (n - c.length) ++ fresh junk (n + 1 - (c ++ 0 :: rest).length), by simp, ?_⟩
  rw [List.length_append, length_fresh, List.length_take, List.length_append, List.length_cons]
  omega

/-- Sizes below the bound do not wrap, neither does the capacity that is asked for. -/
theorem sizeT_prealloc {k : ℕ} (hk : k < maxSize) :
    sizeT (k + maxPrealloc) = k + maxPrealloc ∧
      k ≤ (if k < maxPrealloc then k * 2 else k + maxPrealloc) ∧
        (if k < maxPrealloc then k * 2 else k + maxPrealloc) < 2 ^ 64 := by
  have hpre : maxPrealloc < 2 ^ 21 := by decide
  have hmax : maxSize = 2 ^ 62 := rfl
  -- the numbers are not evaluated
  generalize maxPrealloc = p at hpre ⊢
  refine ⟨?_, ?_, ?_⟩
  · rw [sizeT]
    omega
  · split_ifs <;> omega
  · split_ifs <;> omega

/-- **Room without a change of the content**, across all changes of the header type. -/
theorem makeRoom_spec (h : Holds s c) (hn : c.length + n < maxSize) :
    ∃ s', sdsMakeRoomFor junk s n = some s' ∧ Holds s' c ∧ c.length + n ≤ sdsalloc s' := by
  have havail := h.avail
  have hle := h.le
  have hlen := h.len
  obtain ⟨rest, hbuf, hrest⟩ := h.buf
  rw [sdsMakeRoomFor]
  by_cases hroom : n ≤ sdsavail s
  · rw [if_pos hroom]
    exact ⟨s, rfl, h, by omega⟩
  rw [if_neg hroom]
  have hsize : sizeT ((c.length : ℤ) + n) = c.length + n := by
    have hmax : maxSize = 2 ^ 62 := rfl
    rw [sizeT]
    omega
  obtain ⟨hsize₂, hmn, hm64⟩ := sizeT_prealloc hn
  dsimp only
  rw [hlen, hsize, hsize₂]
  -- the new capacity
  generalize (if c.length + n < maxPrealloc then (c.length + n) * 2
    else c.length + n + maxPrealloc) = m
    at hmn hm64 ⊢
  obtain ⟨t, ht⟩ : ∃ t, t = if sdsReqType m = .t5 then .t8 else sdsReqType m := ⟨_, rfl⟩
  rw [← ht]
  have h5 : t ≠ .t5 := by
    rw [ht]
    split_ifs with hreq
    · exact nofun
    · exact hreq
  have hmt : m < 2 ^ t.width := by
    have hreq := lt_sdsReqType hm64
    rw [ht]
    split_ifs with h5'
    · rw [h5'] at hreq
      exact Nat.lt_trans hreq (by decide)
    · exact hreq
  by_cases hsame : s.type = some t
  · rw [if_pos hsame]
    obtain ⟨rest', hrealloc, hrest'⟩ := @realloc_spec m c rest junk (sdsHdrSize t) (by omega)
    rw [hbuf, hrealloc]
    have hs' : (⟨s.flags, s.len, s.alloc, c ++ 0 :: rest'⟩ : Str).type = some t := hsame
    refine ⟨_, rfl, setAlloc_holds hs' h5 ?_ hmt (by omega) rfl hrest', ?_⟩
    · exact hlen
    · rw [sdsalloc_setalloc hs' h5 hmt]
      exact hmn
  · rw [if_neg hsame]
    obtain ⟨s', rest', hmove, hs', hlen', hbuf', hrest'⟩ :=
      @move_spec s m c rest junk t hbuf (by omega) (by omega)
    rw [hmove]
    refine ⟨_, rfl, setAlloc_holds hs' h5 hlen' hmt (by omega) hbuf' hrest', ?_⟩
    rw [sdsalloc_setalloc hs' h5 hmt]
    exact hmn

/-! ### The other functions -/

/-- The content of a new string; without initialisation it is what the memory held. -/
def Init.content (junk : Bytes) : Init → Bytes
  | .bytes x => x
  | .null n => List.replicate n 0
  | .noinit n => (fresh junk (n + 1)).take n

theorem Init.length_content (init : Init) : (init.content junk).length = init.initlen := by
  cases init with
  | bytes x => rfl
  | null n => exact List.length_replicate
  | noinit n => simp [Init.content, Init.initlen, length_fresh]

theorem newHeader_spec (t : SdsType) (hn : n < 2 ^ t.width) (buf : Bytes) :
    (newHeader t n buf).type = some t ∧ sdslen (newHeader t n buf) = n ∧
      sdsalloc (newHeader t n buf) = n ∧
      (newHeader t n buf).buf = buf := by
  cases t with
  | t5 =>
    have hn : n < 32 := hn
    have hflags : n * 8 % 256 / 8 = n := by omega
    have htype : (newHeader .t5 n buf).type = some .t5 := by
      have hzero : n * 8 % 256 % 8 = 0 := by omega
      simp only [newHeader, Str.type, SdsType.ofFlags, hzero]
    refine ⟨htype, ?_, ?_, rfl⟩
    · rw [sdslen, htype]
      exact hflags
    · rw [sdsalloc, htype]
      exact hflags
  | t8 | t16 | t32 | t64 => exact ⟨rfl, Nat.mod_eq_of_lt hn, Nat.mod_eq_of_lt hn, rfl⟩

/-- A new string is ended behind its bytes. -/
theorem newHeader_holds (t : SdsType) (hc : c.length < 2 ^ t.width) (hbuf : buf = c ++ rest)
    (hrest : rest.length = 1) :
    ∃ s, (newHeader t c.length buf).write c.length [0] = some s ∧ Holds s c := by
  obtain ⟨htype, hlen, halloc, hb⟩ := newHeader_spec t hc buf
  rw [Str.write_append (hb.trans hbuf) (by rw [hrest]; exact Nat.le_refl 1)]
  have hdrop : rest.drop ([0] : Bytes).length = [] :=
    List.drop_of_length_le (by rw [hrest]; exact Nat.le_refl 1)
  rw [hdrop]
  refine ⟨_, rfl, ⟨t, htype, hc, ?_⟩, hlen, Nat.le_of_eq halloc.symm, [], rfl, Nat.le_of_eq halloc⟩
  exact Nat.lt_of_le_of_lt (Nat.le_of_eq halloc) hc

theorem newlen_spec (init : Init) (hn : init.initlen < 2 ^ 64) :
    ∃ s, sdsnewlen junk init = some s ∧ Holds s (init.content junk) := by
  obtain ⟨t, ht⟩ : ∃ t, t = if sdsReqType init.initlen = .t5 ∧ init.initlen = 0 then SdsType.t8
      else sdsReqType init.initlen := ⟨_, rfl⟩
  have hreq : init.initlen < 2 ^ t.width := by
    rw [ht]
    split_ifs with h0
    · rw [h0.2]
      decide
    · exact lt_sdsReqType hn
  have hmalloc : s_malloc junk (sdsHdrSize t + init.initlen + 1) (sdsHdrSize t)
      = fresh junk (init.initlen + 1) := by
    rw [s_malloc, show sdsHdrSize t + init.initlen + 1 - sdsHdrSize t = init.initlen + 1 by omega]
  have hlength := length_fresh junk (init.initlen + 1)
  have hcontent : (init.content junk).length = init.initlen := init.length_content
  have hholds := fun buf rest => @newHeader_holds (init.content junk) rest buf t
    (by rw [hcontent]; exact hreq)
  rw [hcontent] at hholds
  rw [sdsnewlen, ← ht, hmalloc]
  cases init with
  | null n =>
    refine hholds _ [0] ?_ rfl
    rw [Init.memory, hlength]
    exact List.replicate_succ'
  | noinit n =>
    refine hholds _ ((fresh junk (n + 1)).drop n) (List.take_append_drop _ _).symm ?_
    rw [List.length_drop, length_fresh]
    exact Nat.add_sub_cancel_left n 1
  | bytes x =>
    show ∃ s, ((Init.copy (.bytes x) (newHeader t x.length (fresh junk (x.length + 1)))).bind
        fun s => s.write x.length [0]) = some s ∧ Holds s x
    have hlength : (fresh junk (x.length + 1)).length = x.length + 1 := hlength
    have hdrop : ((fresh junk (x.length + 1)).drop x.length).length = 1 := by
      rw [List.length_drop, hlength, Nat.add_sub_cancel_left]
    by_cases hx : x.length = 0
    · obtain rfl : x = [] := List.eq_nil_of_length_eq_zero hx
      exact hholds (fresh junk 1) (fresh junk 1) rfl hlength
    · rw [Init.copy, if_neg hx]
      have hb := (newHeader_spec t hreq (fresh junk (x.length + 1))).2.2.2
      have hcopy : (newHeader t x.length (fresh junk (x.length + 1))).write 0 x =
          some (newHeader t x.length (x ++ (fresh junk (x.length + 1)).drop x.length)) := by
        have hle : x.length ≤ (fresh junk (x.length + 1)).length := by
          rw [hlength]
          exact Nat.le_succ _
        have happend := @Str.write_append _ [] x _ hb hle
        cases t <;> exact happend
      rw [hcopy]
      exact hholds _ _ rfl hdrop

theorem Holds.read (h : Holds s c) : read s.buf 0 (sdslen s) = some c := by
  obtain ⟨rest, hbuf, -⟩ := h.buf
  rw [hbuf, h.len, read_append]

theorem dup_spec (h : Holds s c) : ∃ s', sdsdup junk s = some s' ∧ Holds s' c := by
  rw [sdsdup, h.read, Option.bind_some]
  obtain ⟨t, -, hc, -⟩ := h.type
  have hwidth : t.width ≤ 64 := by cases t <;> decide
  exact newlen_spec (.bytes c) (Nat.lt_of_lt_of_le hc (Nat.pow_le_pow_right (by decide) hwidth))

theorem clear_spec (h : Holds s c) : ∃ s', sdsclear s = some s' ∧ Holds s' [] := by
  obtain ⟨t, ht, -, halloc⟩ := h.type
  rw [sdsclear, write_setlen]
  exact @terminate_holds s t [] s.buf ht halloc (Nat.zero_le _) rfl h.buf_le

theorem cat_spec (h : Holds s c) (hx : c.length + x.length < maxSize) :
    ∃ s', sdscatlen junk s x = some s' ∧ Holds s' (c ++ x) := by
  obtain ⟨s₁, hroom, h₁, halloc⟩ := @makeRoom_spec s x.length c junk h hx
  obtain ⟨t, ht, -, hwidth⟩ := h₁.type
  obtain ⟨rest, hbuf, hrest⟩ := h₁.buf
  have hlen : x.length ≤ (0 :: rest : Bytes).length := by
    rw [List.length_cons]
    omega
  rw [sdscatlen, h.len]
  rw [hroom, Option.bind_some, Str.write_append hbuf hlen, Option.bind_some, write_setlen,
    ← List.length_append]
  refine @terminate_holds _ t (c ++ x) ((0 :: rest).drop x.length) ht hwidth ?_ ?_ ?_
  · rw [List.length_append]
    exact halloc
  · exact (List.append_assoc _ _ _).symm
  · show sdsalloc s₁ < _
    simp only [List.length_append, List.length_drop]
    rw [List.length_cons] at hlen ⊢
    omega

theorem cpy_spec (h : Holds s c) (hx : x.length < maxSize) :
    ∃ s', sdscpylen junk s x = some s' ∧ Holds s' x := by
  -- the string with enough room
  obtain ⟨s₁, hroom, ⟨t, ht, hwidth⟩, halloc, hbuf⟩ : ∃ s₁,
      (if sdsalloc s < x.length then sdsMakeRoomFor junk s (x.length - sdslen s)
        else some s) = some s₁ ∧
        (∃ t, s₁.type = some t ∧ sdsalloc s₁ < 2 ^ t.width) ∧ x.length ≤ sdsalloc s₁ ∧
        sdsalloc s₁ < s₁.buf.length := by
    have hle := h.le
    have hlen := h.len
    split_ifs with hsmall
    · obtain ⟨s₁, hroom, h₁, halloc⟩ := @makeRoom_spec s (x.length - sdslen s) c junk h (by omega)
      obtain ⟨t, ht, -, hwidth⟩ := h₁.type
      exact ⟨s₁, hroom, ⟨t, ht, hwidth⟩, by omega, h₁.buf_le⟩
    · obtain ⟨t, ht, -, hwidth⟩ := h.type
      exact ⟨s, rfl, ⟨t, ht, hwidth⟩, by omega, h.buf_le⟩
  have hlen : x.length ≤ s₁.buf.length := by omega
  rw [sdscpylen, hroom, Option.bind_some]
  rw [show s₁.write 0 x = _ from @Str.write_append s₁ [] x s₁.buf rfl hlen, Option.bind_some]
  refine @terminate_holds _ t x (s₁.buf.drop x.length) ht hwidth halloc rfl ?_
  show sdsalloc s₁ < _
  simp only [List.nil_append, List.length_append, List.length_drop]
  omega

theorem grow_spec (h : Holds s c) (hn : n < maxSize) :
    ∃ s', sdsgrowzero junk s n = some s' ∧ Holds s' (c ++ List.replicate (n - c.length) 0) := by
  rw [sdsgrowzero, h.len]
  split_ifs with hle
  · refine ⟨s, rfl, ?_⟩
    rwa [Nat.sub_eq_zero_of_le hle, List.replicate_zero, List.append_nil]
  · obtain ⟨s₁, hroom, h₁, halloc⟩ := @makeRoom_spec s (n - c.length) c junk h (by omega)
    obtain ⟨t, ht, -, hwidth⟩ := h₁.type
    obtain ⟨rest, hbuf, hrest⟩ := h₁.buf
    have hlen : (List.replicate (n - c.length + 1) (0 : UInt8)).length
        ≤ (0 :: rest : Bytes).length := by
      rw [List.length_replicate, List.length_cons]
      omega
    have hnew : (c ++ List.replicate (n - c.length) (0 : UInt8)).length = n := by
      rw [List.length_append, List.length_replicate]
      omega
    rw [hroom, Option.bind_some, Str.write_append hbuf hlen, Option.map_some]
    refine ⟨_, rfl, ?_⟩
    have hholds := @setLen_holds { s₁ with buf := c ++ (List.replicate (n - c.length + 1) 0 ++
        (0 :: rest).drop (List.replicate (n - c.length + 1) (0 : UInt8)).length) } t
      (c ++ List.replicate (n - c.length) 0)
      ((0 :: rest).drop (List.replicate (n - c.length + 1) (0 : UInt8)).length) ht hwidth
    rw [hnew] at hholds
    refine hholds (by show n ≤ sdsalloc s₁; omega) ?_ ?_
    · simp [List.replicate_succ']
    · show sdsalloc s₁ < _
      simp only [List.length_append, List.length_drop, List.length_replicate, List.length_cons]
      omega

theorem mapchars_spec (h : Holds s c) (set : List (UInt8 × UInt8)) :
    ∃ s', sdsmapchars s set = some s' ∧ Holds s' (c.map (mapChar set)) := by
  obtain ⟨rest, hbuf, hrest⟩ := h.buf
  have hlen : (c.map (mapChar set)).length ≤ s.buf.length := by
    rw [List.length_map, hbuf, List.length_append]
    omega
  rw [sdsmapchars, h.read, Option.bind_some]
  rw [show s.write 0 (c.map (mapChar set)) = _ from @Str.write_append s [] _ s.buf rfl hlen]
  refine ⟨_, rfl, ?_, ?_, ?_, rest, ?_, ?_⟩
  · rw [List.length_map]
    exact h.type
  · rw [List.length_map]
    exact h.len
  · rw [List.length_map]
    exact h.le
  · rw [hbuf, List.length_map, List.drop_left]
    rfl
  · rw [List.length_map]
    exact hrest

theorem removeFreeSpace_spec (h : Holds s c) :
    ∃ s', sdsRemoveFreeSpace junk s = some s' ∧ Holds s' c := by
  obtain ⟨t, ht, hc, hwidth⟩ := h.type
  obtain ⟨rest, hbuf, hrest⟩ := h.buf
  rw [sdsRemoveFreeSpace, ht, Option.bind_some, h.len]
  dsimp only
  by_cases havail : sdsavail s = 0
  · rw [if_pos havail]
    exact ⟨s, rfl, h⟩
  rw [if_neg havail]
  have h5 : t ≠ .t5 := by
    rintro rfl
    rw [sdsavail, ht] at havail
    exact havail rfl
  by_cases hkeep : t = sdsReqType c.length ∨ SdsType.t8.code < (sdsReqType c.length).code
  · rw [if_pos hkeep]
    obtain ⟨rest', hrealloc, hrest'⟩ := @realloc_spec c.length c rest junk (sdsHdrSize t)
      (Nat.le_refl _)
    rw [hbuf, hrealloc]
    have hs' : (⟨s.flags, s.len, s.alloc, c ++ 0 :: rest'⟩ : Str).type = some t := ht
    exact ⟨_, rfl, setAlloc_holds hs' h5 h.len hc (Nat.le_refl _) rfl hrest'⟩
  · rw [if_neg hkeep]
    have hc64 : c.length < 2 ^ 64 := by
      have hwidth : t.width ≤ 64 := by cases t <;> decide
      exact Nat.lt_of_lt_of_le hc (Nat.pow_le_pow_right (by decide) hwidth)
    have hreq := lt_sdsReqType hc64
    obtain ⟨s', rest', hmove, hs', hlen', hbuf', hrest'⟩ :=
      @move_spec s c.length c rest junk (sdsReqType c.length) hbuf hreq (Nat.le_refl _)
    rw [hmove]
    refine ⟨_, rfl, ?_⟩
    by_cases h5' : sdsReqType c.length = .t5
    · rw [h5'] at hs' hreq
      -- there is no capacity to set
      have hset : sdssetalloc s' c.length = s' := by rw [sdssetalloc, hs']
      have halloc : sdsalloc s' = c.length := by rw [sdsalloc_t5 hs', hlen']
      show Holds (sdssetalloc s' c.length) c
      rw [hset]
      refine ⟨⟨.t5, hs', hreq, halloc ▸ hreq⟩, hlen', Nat.le_of_eq halloc.symm, rest', hbuf', ?_⟩
      rw [halloc]
      exact Nat.le_add_right _ _
    · exact setAlloc_holds hs' h5' hlen' hreq (Nat.le_refl _) hbuf' hrest'

theorem rangeCut_spec (c : Bytes) (start stop : ℤ) :
    (rangeCut c.length start stop).1.toNat + (rangeCut c.length start stop).2.toNat ≤ c.length ∨
      (rangeCut c.length start stop).2.toNat = 0 := by
  have hstart : 0 ≤ if start < 0 then max ((c.length : ℤ) + start) 0 else start := by
    split_ifs <;> omega
  simp only [rangeCut]
  generalize (if start < 0 then max ((c.length : ℤ) + start) 0 else start) = a at hstart ⊢
  generalize (if stop < 0 then max ((c.length : ℤ) + stop) 0 else stop) = b
  split_ifs <;> dsimp only <;> omega

theorem rangeCut_eq (hc : c ≠ []) (start stop : ℤ) :
    Sds.sdsrange c start stop =
      (c.drop (rangeCut c.length start stop).1.toNat).take
        (rangeCut c.length start stop).2.toNat := by
  simp only [Sds.sdsrange, rangeCut, if_neg hc]
  generalize (if start < 0 then max ((c.length : ℤ) + start) 0 else start) = a
  generalize (if stop < 0 then max ((c.length : ℤ) + stop) 0 else stop) = b
  split_ifs <;> simp_all

theorem range_spec (h : Holds s c) (start stop : ℤ) :
    ∃ s', sdsrange s start stop = some s' ∧ Holds s' (Sds.sdsrange c start stop) := by
  rw [sdsrange, h.len]
  by_cases hc : c = []
  · subst hc
    exact ⟨s, rfl, h⟩
  have hlen : c.length ≠ 0 := fun h0 => hc (List.eq_nil_of_length_eq_zero h0)
  obtain ⟨t, ht, -, hwidth⟩ := h.type
  obtain ⟨rest, hbuf, hrest⟩ := h.buf
  have hle := h.le
  have hcut := rangeCut_spec c start stop
  rw [if_neg hlen, rangeCut_eq hc start stop]
  dsimp only
  generalize (rangeCut c.length start stop).1.toNat = a at hcut ⊢
  generalize (rangeCut c.length start stop).2.toNat = n at hcut ⊢
  have hn : ((c.drop a).take n).length = n := by
    rw [List.length_take, List.length_drop]
    omega
  -- the bytes are moved to the front
  obtain ⟨s₁, hmove, hs₁, halloc₁, rest₁, hbuf₁, hroom₁⟩ : ∃ s₁,
      (if a ≠ 0 ∧ n ≠ 0 then (read s.buf a n).bind (s.write 0) else some s) = some s₁ ∧
        s₁.type = some t ∧
        sdsalloc s₁ = sdsalloc s ∧ ∃ rest₁, s₁.buf = (c.drop a).take n ++ rest₁ ∧
          s₁.buf.length = s.buf.length := by
    split_ifs with hmoves
    · have hread : read s.buf a n = some ((c.drop a).take n) := by
        have hac : a ≤ c.length := by omega
        have hna : n ≤ (c.drop a).length := by
          rw [List.length_drop]
          omega
        rw [read, if_pos (by rw [hbuf, List.length_append]; omega), hbuf,
          List.drop_append_of_le_length hac, List.take_append_of_le_length hna]
      have hle : ((c.drop a).take n).length ≤ s.buf.length := by
        rw [hn, hbuf, List.length_append]
        omega
      have hwrite := @Str.write_append s [] ((c.drop a).take n) s.buf rfl hle
      rw [hread, Option.bind_some]
      refine ⟨_, hwrite, ht, rfl, s.buf.drop ((c.drop a).take n).length, rfl, ?_⟩
      rw [List.nil_append, List.length_append, List.length_drop]
      omega
    · refine ⟨s, rfl, ht, rfl, ?_⟩
      by_cases ha : a = 0
      · subst ha
        refine ⟨c.drop n ++ 0 :: rest, ?_, rfl⟩
        rw [hbuf, List.drop_zero, ← List.append_assoc, List.take_append_drop]
      · have hn0 : n = 0 := by omega
        subst hn0
        exact ⟨s.buf, rfl, rfl⟩
  rw [hmove, Option.bind_some]
  have hend := @terminate_holds s₁ t ((c.drop a).take n) rest₁ hs₁ (by rwa [halloc₁])
    (by rw [halloc₁, hn]; omega) hbuf₁ (by rw [halloc₁, hroom₁]; exact h.buf_le)
  rwa [hn] at hend

/-- The assertions of `sdsIncrLen` hold within the room. -/
theorem SdsType.allowsIncr_of {alloc len : ℕ} (halloc : alloc < 2 ^ t.width) (hlen : len ≤ alloc)
    (htrim : -incr ≤ len) (hroom : len + incr ≤ alloc) : t.allowsIncr alloc len incr := by
  rcases Int.lt_or_le incr 0 with hneg | hpos
  · cases t <;> exact Or.inr ⟨hneg, by omega⟩
  · cases t <;> simp only [SdsType.width] at halloc <;> exact Or.inl ⟨hpos, by omega⟩

theorem ssizeT_of_lt {n : ℤ} (hlo : -2 ^ 63 ≤ n) (hhi : n < 2 ^ 63) : ssizeT n = n :=
  Int.bmod_eq_of_le (by omega) (by omega)

/-- Within the room the length is set.  A header of type 5 announces no room, so that its
string can only be trimmed. -/
theorem sdsIncrLen_eq (ht : s.type = some t) (hlen : sdslen s = c.length)
    (hle : c.length ≤ sdsalloc s) (halloc : sdsalloc s < 2 ^ t.width)
    (hroom : c.length + incr ≤ sdsalloc s) (hidle : incr = 0 → s.type ≠ some .t5)
    (hn : (n : ℤ) = c.length + incr) :
    sdsIncrLen s incr = (sdssetlen s n).write n [0] := by
  have hmod : ∀ w : ℕ, n < 2 ^ w → ((n : ℤ) % 2 ^ w).toNat = n ∧ n % 2 ^ w = n := by
    intro w hw
    have hcast : ((n : ℤ) % 2 ^ w).toNat = n % 2 ^ w := by
      exact_mod_cast Int.toNat_natCast (n % 2 ^ w)
    exact ⟨hcast.trans (Nat.mod_eq_of_lt hw), Nat.mod_eq_of_lt hw⟩
  cases t with
  | t5 =>
    have hzero : incr ≠ 0 := fun h0 => hidle h0 ht
    rw [sdsalloc_t5 ht, hlen] at hroom halloc
    have hflags : s.flags / 8 = c.length := by
      rw [← hlen, sdslen, ht]
    have hc : c.length < 32 := halloc
    simp only [sdsIncrLen, sdssetlen, ht, hflags]
    have hassert : (-incr) % 2 ^ 32 ≤ c.length := by omega
    rw [if_pos (Or.inr ⟨by omega, hassert⟩), ← hn, ssizeT_of_lt (by omega) (by omega)]
    have h₁ : ((n : ℤ) * 8 % 256).toNat = n * 8 % 256 := by omega
    have h₂ : sizeT n = n := by
      rw [sizeT]
      omega
    rw [h₁, h₂]
  | t8 | t16 | t32 | t64 =>
    simp only [sdslen, sdsalloc, ht] at hlen hle halloc hroom
    simp only [sdsIncrLen, sdssetlen, ht]
    rw [if_pos (SdsType.allowsIncr_of halloc (by omega) (by omega) (by omega)), hlen, ← hn]
    obtain ⟨h₁, h₂⟩ := hmod _ (Nat.lt_of_le_of_lt (by omega : n ≤ s.alloc) halloc)
    rw [h₁, h₂]

/-- The bytes behind the end become part of the string, or the string is trimmed. -/
def incremented (c written : Bytes) (incr : ℤ) : Bytes :=
  (c ++ written).take (c.length + incr).toNat

theorem incr_spec {written : Bytes} (h : Holds s c) (hwritten : written.length ≤ sdsavail s)
    (hincr : incr ≤ written.length) (htrim : -incr ≤ sdslen s)
    (hidle : incr = 0 → s.type ≠ some .t5) :
    ∃ s', ((s.write (sdslen s) written).bind fun s => sdsIncrLen s incr) = some s' ∧
      Holds s' (incremented c written incr) := by
  obtain ⟨t, ht, hc, hwidth⟩ := h.type
  obtain ⟨rest, hbuf, hrest⟩ := h.buf
  have havail := h.avail
  have hle := h.le
  rw [h.len] at havail htrim ⊢
  have hlen : written.length ≤ (0 :: rest : Bytes).length := by
    rw [List.length_cons]
    omega
  rw [Str.write_append hbuf hlen, Option.bind_some]
  obtain ⟨n, hn⟩ : ∃ n : ℕ, (n : ℤ) = c.length + incr := ⟨(c.length + incr).toNat, by omega⟩
  have hlength : (incremented c written incr).length = n := by
    rw [incremented, List.length_take, List.length_append]
    omega
  obtain ⟨s₁, hs₁⟩ : ∃ s₁ : Str, s₁ = { s with
      buf := c ++ (written ++ (0 :: rest).drop written.length) } := ⟨_, rfl⟩
  have ht₁ : s₁.type = some t := by rw [hs₁]; exact ht
  have halloc₁ : sdsalloc s₁ = sdsalloc s := by rw [hs₁]; rfl
  have hlen₁ : sdslen s₁ = c.length := by rw [hs₁]; exact h.len
  have hsplit : s₁.buf = incremented c written incr ++
      ((c ++ written).drop n ++ (0 :: rest).drop written.length) := by
    rw [incremented, ← hn, Int.toNat_natCast, ← List.append_assoc, List.take_append_drop,
      List.append_assoc, hs₁]
  have hroom : sdsalloc s₁ < s₁.buf.length := by
    rw [halloc₁, hs₁]
    simp only [List.length_append, List.length_drop]
    rw [List.length_cons] at hlen ⊢
    omega
  -- the assertions hold, and the length is set
  have hset : sdsIncrLen s₁ incr = (s₁.write n [0]).map fun s => sdssetlen s n := by
    rw [← write_setlen]
    refine sdsIncrLen_eq ht₁ hlen₁ (by rwa [halloc₁]) (by rwa [halloc₁]) ?_
      (fun h0 => by rw [ht₁, ← ht]; exact hidle h0) hn
    omega
  rw [← hs₁, hset, ← hlength]
  refine terminate_holds ht₁ (by rwa [halloc₁]) ?_ hsplit hroom
  omega

/-! ### Runs -/

abbrev Contents := ℕ → Option Bytes

/-- What a call does to the content of one string. -/
def Contents.change (q : Contents) (v : ℕ) (f : Bytes → Bytes) : Contents :=
  update q v ((q v).map f)

/-- What a call does to the contents. -/
def spec (q : Contents) : Call → Contents × Unit
  | .sdsnewlen v init junk => (update q v (some (init.content junk)), ())
  | .sdsMakeRoomFor _ _ _ | .sdsRemoveFreeSpace _ _ => (q, ())
  | .sdsIncrLen v written incr => (q.change v fun c => incremented c written incr, ())
  | .sdscatlen v t _ => (q.change v (· ++ t), ())
  | .sdscpylen v t _ => (q.change v fun _ => t, ())
  | .sdsgrowzero v len _ => (q.change v fun c => c ++ List.replicate (len - c.length) 0, ())
  | .sdsclear v => (q.change v fun _ => [], ())
  | .sdsrange v start stop => (q.change v fun c => Sds.sdsrange c start stop, ())
  | .sdsmapchars v set => (q.change v (·.map (mapChar set)), ())
  | .sdsdup v w _ => (update q w (q v), ())

/-- Every string holds its content. -/
def Refines (st : Strings) (q : Contents) : Prop := ∀ v, Option.Rel Holds (st v) (q v)

variable {st : Strings} {q : Contents} {v w : ℕ}

theorem refines_empty : Refines (fun _ => none) fun _ => none := fun _ => .none

theorem Refines.lookup (h : Refines st q) (hs : st v = some s) : ∃ c, q v = some c ∧ Holds s c := by
  have hrel := h v
  rw [hs] at hrel
  cases hq : q v with
  | none =>
    rw [hq] at hrel
    exact nomatch hrel
  | some c =>
    rw [hq] at hrel
    cases hrel with
    | some hholds => exact ⟨c, rfl, hholds⟩

theorem Refines.write (h : Refines st q) (hs : Holds s c) :
    Refines (update st v (some s)) (update q v (some c)) := by
  intro w
  by_cases hw : w = v
  · subst hw
    rw [update_self, update_self]
    exact .some hs
  · rw [update_of_ne hw, update_of_ne hw]
    exact h w

/-- A call that changes one string. -/
theorem Refines.change {f : Str → Option Str} {g : Bytes → Bytes} (h : Refines st q)
    (hs : st v = some s) (hf : ∀ c, Holds s c → ∃ s', f s = some s' ∧ Holds s' (g c)) :
    ∃ st', st.change v f = some (st', ()) ∧ Refines st' (q.change v g) := by
  obtain ⟨c, hq, hc⟩ := h.lookup hs
  obtain ⟨s', hs', hc'⟩ := hf c hc
  refine ⟨update st v (some s'), by rw [Strings.change, hs, Option.bind_some, hs']; rfl, ?_⟩
  rw [Contents.change, hq]
  exact h.write hc'

theorem Contents.change_id (q : Contents) (v : ℕ) : q.change v (fun c => c) = q := by
  rw [Contents.change, show (q v).map (fun c => c) = q v from Option.map_id_apply, update_eq_self]

theorem step_refines (st : Strings) (q : Contents) (i : Call) (h : Refines st q)
    (hi : Within st i ∧ NotIdle st i) :
    ∃ st', step st i = some (st', (spec q i).2) ∧ Refines st' (spec q i).1 := by
  obtain ⟨hwithin, hidle⟩ := hi
  have hsize : maxSize < 2 ^ 64 := by decide
  cases i with
  | sdsnewlen v init junk =>
    obtain ⟨s, hs, hc⟩ := @newlen_spec junk init (Nat.lt_trans hwithin hsize)
    exact ⟨_, by rw [step, hs]; rfl, h.write hc⟩
  | sdsMakeRoomFor v addlen junk =>
    obtain ⟨s, hs, hlen⟩ := hwithin
    have hchange := h.change (f := fun s => sdsMakeRoomFor junk s addlen) (g := fun c => c) hs
      fun c hc => by
      obtain ⟨s', hs', hc', -⟩ := @makeRoom_spec s addlen c junk hc (hc.len ▸ hlen)
      exact ⟨s', hs', hc'⟩
    rwa [Contents.change_id] at hchange
  | sdsIncrLen v written incr =>
    obtain ⟨s, hs, hwritten, hincr, htrim, -⟩ := hwithin
    exact h.change hs fun c hc => incr_spec hc hwritten hincr htrim fun h0 => hidle h0 s hs
  | sdsRemoveFreeSpace v junk =>
    obtain ⟨s, hs, -⟩ := hwithin
    have hchange := h.change (g := fun c => c) hs fun c hc => @removeFreeSpace_spec s c junk hc
    rwa [Contents.change_id] at hchange
  | sdscatlen v t junk =>
    obtain ⟨s, hs, hlen⟩ := hwithin
    exact h.change (g := (· ++ t)) hs fun c hc => cat_spec hc (hc.len ▸ hlen)
  | sdscpylen v t junk =>
    obtain ⟨s, hs, hlen⟩ := hwithin
    exact h.change (g := fun _ => t) hs fun c hc => cpy_spec hc hlen
  | sdsgrowzero v len junk =>
    obtain ⟨s, hs, hlen⟩ := hwithin
    exact h.change (g := fun c => c ++ List.replicate (len - c.length) 0) hs fun c hc =>
      grow_spec hc hlen
  | sdsclear v =>
    obtain ⟨s, hs, -⟩ := hwithin
    exact h.change (g := fun _ => []) hs fun c hc => clear_spec hc
  | sdsrange v start stop =>
    obtain ⟨s, hs, -⟩ := hwithin
    exact h.change (g := fun c => Sds.sdsrange c start stop) hs fun c hc => range_spec hc start stop
  | sdsmapchars v set =>
    obtain ⟨s, hs, -⟩ := hwithin
    exact h.change (g := (·.map (mapChar set))) hs fun c hc => mapchars_spec hc set
  | sdsdup v w junk =>
    obtain ⟨s, hs, -⟩ := hwithin
    obtain ⟨c, hq, hc⟩ := h.lookup hs
    obtain ⟨s', hs', hc'⟩ := @dup_spec s c junk hc
    refine ⟨_, by rw [step, hs, Option.bind_some, hs']; rfl, ?_⟩
    rw [spec, hq]
    exact h.write hc'

/-- An increment by zero aborts on a header of type 5. -/
theorem notIdle_of_step (st : Strings) (i : Call) (st' : Strings) (o : Unit)
    (h : step st i = some (st', o)) : NotIdle st i := by
  cases i with
  | sdsIncrLen v written incr =>
    rintro rfl s hs ht
    -- the caller's bytes do not change the header
    obtain ⟨s₁, hs₁, hrest⟩ := Option.bind_eq_some_iff.mp h
    obtain rfl := Option.some.inj (Eq.trans (Eq.symm hs) hs₁)
    obtain ⟨s₂, hs₂, -⟩ := Option.map_eq_some_iff.mp hrest
    obtain ⟨s₃, hs₃, hincr⟩ := Option.bind_eq_some_iff.mp hs₂
    obtain ⟨buf, -, rfl⟩ := Option.map_eq_some_iff.mp hs₃
    have ht' : ({ s with buf := buf } : Str).type = some .t5 := ht
    rw [sdsIncrLen, ht'] at hincr
    simp at hincr
  | _ => trivial

/-- What a string shows of its content. -/
structure Shows (s : Str) (c : Bytes) : Prop where
  type : ∃ t, s.type = some t ∧ sdslen s < 2 ^ t.width ∧ sdsalloc s < 2 ^ t.width
  len_le : sdslen s ≤ sdsalloc s
  alloc_le : sdsalloc s ≤ s.buf.length - 1 ∧ s.buf ≠ []
  nul : s.buf[sdslen s]? = some 0
  avail : sdsavail s = sdsalloc s - sdslen s
  content : s.buf.take (sdslen s) = c
  room : ∀ junk n, sdslen s + n < maxSize → ∃ s', sdsMakeRoomFor junk s n = some s' ∧
    n ≤ sdsavail s' ∧ sdslen s' = sdslen s ∧ s'.buf.take (sdslen s') = c

theorem Holds.shows (h : Holds s c) : Shows s c := by
  obtain ⟨t, ht, hc, halloc⟩ := h.type
  obtain ⟨rest, hbuf, hrest⟩ := h.buf
  have hlen := h.len
  refine ⟨⟨t, ht, hlen ▸ hc, halloc⟩, hlen ▸ h.le, ⟨?_, by simp [hbuf]⟩, ?_, h.avail, ?_,
    fun junk n hn => ?_⟩
  · have hle := h.buf_le
    omega
  · rw [hlen, hbuf, List.getElem?_append_right (Nat.le_refl _), Nat.sub_self]
    rfl
  · rw [hlen, hbuf, List.take_left]
  · obtain ⟨s', hs', h', hroom⟩ := @makeRoom_spec s n c junk h (hlen ▸ hn)
    obtain ⟨rest', hbuf', -⟩ := h'.buf
    refine ⟨s', hs', ?_, by rw [hlen, h'.len], ?_⟩
    · rw [h'.avail, h'.len]
      omega
    · rw [h'.len, hbuf', List.take_left]

/-- **Strings refine byte strings** in a run of calls within their bounds, if and only if no
call is `sdsIncrLen` with zero on a string with a header of type 5. -/
theorem strings_refine_iff (calls : List Call) (h : Runs.Meets step Within (fun _ => none) calls) :
    (∃ st, Runs.run step (fun _ => none) calls = some (st,
      (Runs.specRun spec (fun _ => none) calls).2) ∧
        ∀ v, Option.Rel Shows (st v) ((Runs.specRun spec (fun _ => none) calls).1 v)) ↔
      Runs.Meets step NotIdle (fun _ => none) calls := by
  constructor
  · rintro ⟨st, hrun, -⟩
    exact Runs.meets_of_run notIdle_of_step (by rw [hrun]; exact nofun)
  · intro hidle
    obtain ⟨st, hrun, hrefines⟩ := Runs.run_simulates step_refines refines_empty (h.and hidle)
    refine ⟨st, hrun, fun v => ?_⟩
    have hrel := hrefines v
    revert hrel
    generalize st v = x, (Runs.specRun spec (fun _ => none) calls).1 v = y
    intro hrel
    cases hrel with
    | none => exact .none
    | some hholds => exact .some hholds.shows

/-- A string that goes through headers of several types. -/
def sampleCalls : List Call :=
  [.sdsnewlen 0 (.bytes [97, 98, 99]) [], .sdsMakeRoomFor 0 300 [1, 2, 3],
    .sdsIncrLen 0 [100, 101] 2,
    .sdsdup 0 1 [], .sdsIncrLen 1 [] (-1), .sdsrange 0 1 (-2), .sdsRemoveFreeSpace 0 [],
      .sdscatlen 0 [0, 7] [],
    .sdsmapchars 0 [(7, 8)], .sdsgrowzero 0 9 [], .sdscpylen 0 [1, 2] [], .sdsclear 0]

theorem strings_refine_iff_sample :
    Runs.Meets step Within (fun _ => none) sampleCalls ∧
      ((∃ st, Runs.run step (fun _ => none) sampleCalls =
          some (st, (Runs.specRun spec (fun _ => none) sampleCalls).2) ∧
          ∀ v, Option.Rel Shows (st v) ((Runs.specRun spec (fun _ => none) sampleCalls).1 v)) ↔
        Runs.Meets step NotIdle (fun _ => none) sampleCalls) :=
  have h : Runs.Meets step Within (fun _ => none) sampleCalls := by decide +kernel
  ⟨h, strings_refine_iff sampleCalls h⟩

/-- A string of three bytes has a header of type 5, with no room; an increment by that room
aborts. -/
theorem idle_increment_aborts :
    Runs.Meets step Within (fun _ => none)
        [.sdsnewlen 0 (.bytes [97, 98, 99]) [], .sdsMakeRoomFor 0 0 [], .sdsIncrLen 0 [] 0] ∧
      Runs.run step (fun _ => none)
        [.sdsnewlen 0 (.bytes [97, 98, 99]) [], .sdsMakeRoomFor 0 0 [], .sdsIncrLen 0 [] 0]
          = none := by
  constructor
  · decide +kernel
  · rfl

end SdsHeader
