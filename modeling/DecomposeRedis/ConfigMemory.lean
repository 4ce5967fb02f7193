/-
Byte sizes in the configuration file (`rewriteConfigFormatMemory` of config.c).

CONFIG REWRITE writes a size with the largest unit that divides it, and the loader
reads each option with a conversion of its own.

* `format_eq` — what is written: a quotient and the unit;
* `bytes_read_back_iff` — a size is read back as it was, except for
  `repl-backlog-ttl`, which is read as an `int` without units.
-/
import DecomposeRedis.Sds

namespace Config

open Sds

/-! ### Writing -/

/-- `rewriteConfigFormatMemory`; the buffer of the callers has room for any number. -/
def rewriteConfigFormatMemory (bytes : ℤ) : Bytes :=
  let gb := 1024 * 1024 * 1024
  let mb := 1024 * 1024
  let kb := 1024
  if bytes ≠ 0 ∧ bytes.tmod gb = 0 then decimalInt (bytes.tdiv gb) ++ [103, 98]
  else if bytes ≠ 0 ∧ bytes.tmod mb = 0 then decimalInt (bytes.tdiv mb) ++ [109, 98]
  else if bytes ≠ 0 ∧ bytes.tmod kb = 0 then decimalInt (bytes.tdiv kb) ++ [107, 98]
  else decimalInt bytes

/-- The sizes that are written with `rewriteConfigFormatMemory`: by
`rewriteConfigBytesOption`, and the two of `client-output-buffer-limit`. -/
inductive BytesOption where
  | replBacklogSize
  | replBacklogTtl
  | maxmemory
  | protoMaxBulkLen
  | clientQueryBufferLimit
  | activeDefragIgnoreBytes
  | autoAofRewriteMinSize
  | outputBufferHard
  | outputBufferSoft
  deriving DecidableEq

/-- The conversion in `loadServerConfigFromString`. -/
def BytesOption.read (memtoll atoi : Bytes → ℤ) : BytesOption → Bytes → ℤ
  | .replBacklogTtl => atoi
  | _ => memtoll

/-! ### Units -/

inductive Scale where
  | one
  | kb
  | mb
  | gb

def Scale.suffix : Scale → Bytes
  | .one => []
  | .kb => [107, 98]
  | .mb => [109, 98]
  | .gb => [103, 98]

def Scale.size : Scale → ℕ
  | .one => 1
  | .kb => 1024
  | .mb => 1024 * 1024
  | .gb => 1024 * 1024 * 1024

/-- `memtoll` takes a decimal number with a unit. -/
def ReadsScaled (memtoll : Bytes → ℤ) : Prop :=
  ∀ (n : ℕ) (u : Scale), n * u.size < 2 ^ 63 → memtoll (decimal n ++ u.suffix) = (n * u.size : ℕ)

/-- `atoi` returns an `int`, and takes the digits at the beginning if their number is one. -/
structure ReadsDigits (atoi : Bytes → ℤ) : Prop where
  isInt : ∀ s, -2 ^ 31 ≤ atoi s ∧ atoi s < 2 ^ 31
  digits : ∀ (n : ℕ) (s : Bytes), n < 2 ^ 31 → (∀ b ∈ s.head?, ¬ (48 ≤ b ∧ b ≤ 57)) →
    atoi (decimal n ++ s) = n

theorem Scale.suffix_not_digit (u : Scale) : ∀ b ∈ u.suffix.head?, ¬ (48 ≤ b ∧ b ≤ 57) := by
  cases u <;> simp [Scale.suffix]

theorem Scale.size_pos (u : Scale) : 0 < u.size := by
  cases u <;> simp [Scale.size]

theorem decimalInt_tdiv (q k : ℕ) (hk : 0 < k) :
    decimalInt (((q * k : ℕ) : ℤ).tdiv k) = decimal q := by
  have hdiv : ((q * k : ℕ) : ℤ).tdiv k = (q : ℤ) := by
    rw [Nat.cast_mul, Int.mul_tdiv_cancel]
    exact_mod_cast hk.ne'
  rw [hdiv]
  exact decimalInt_natCast q

/-- What is written for a size that is not zero and a multiple of the unit of `u`. -/
theorem exists_quotient {n k : ℕ} (h : ((n : ℤ) ≠ 0 ∧ (n : ℤ).tmod k = 0)) :
    ∃ q, n = q * k ∧ 0 < q := by
  obtain ⟨q, hq⟩ : k ∣ n := by exact_mod_cast Int.dvd_of_tmod_eq_zero h.2
  refine ⟨q, hq.trans (Nat.mul_comm k q), Nat.pos_of_ne_zero ?_⟩
  rintro rfl
  exact h.1 (by rw [hq]; rfl)

/-- **What is written**: a quotient and a unit, without a unit exactly if the size is zero
or no multiple of 1024. -/
theorem format_eq (n : ℕ) :
    ∃ (q : ℕ) (u : Scale), n = q * u.size ∧ rewriteConfigFormatMemory n = decimal q ++ u.suffix ∧
      (u.size = 1 ↔ n = 0 ∨ ¬ 1024 ∣ n) := by
  -- a size with a unit is a multiple of 1024 and not zero
  have hunit : ∀ (u : Scale), u.size ≠ 1 → 1024 ∣ u.size := by
    intro u hu
    cases u with
    | one => exact absurd rfl hu
    | kb | mb | gb => simp [Scale.size]
  have hscaled : ∀ (u : Scale), u.size ≠ 1 → ((n : ℤ) ≠ 0 ∧ (n : ℤ).tmod u.size = 0) →
      ∃ q, n = q * u.size ∧ decimalInt ((n : ℤ).tdiv u.size) ++ u.suffix = decimal q ++ u.suffix ∧
        (u.size = 1 ↔ n = 0 ∨ ¬ 1024 ∣ n) := by
    intro u hu h
    obtain ⟨q, hq, hq0⟩ := exists_quotient h
    refine ⟨q, hq, ?_, iff_of_false hu ?_⟩
    · rw [hq, decimalInt_tdiv q u.size u.size_pos]
    · rintro (hzero | hdvd)
      · exact h.1 (by exact_mod_cast hzero)
      · exact hdvd (hq ▸ (hunit u hu).mul_left q)
  rw [rewriteConfigFormatMemory]
  split_ifs with hgb hmb hkb
  · obtain ⟨q, h⟩ := hscaled .gb (by decide) hgb
    exact ⟨q, .gb, h⟩
  · obtain ⟨q, h⟩ := hscaled .mb (by decide) hmb
    exact ⟨q, .mb, h⟩
  · obtain ⟨q, h⟩ := hscaled .kb (by decide) hkb
    exact ⟨q, .kb, h⟩
  · refine ⟨n, .one, (Nat.mul_one n).symm, ?_, iff_of_true rfl ?_⟩
    · rw [decimalInt_natCast, Scale.suffix, List.append_nil]
    · by_contra hboth
      rw [not_or, not_not] at hboth
      refine hkb ⟨by exact_mod_cast hboth.1, Int.tmod_eq_zero_of_dvd ?_⟩
      exact_mod_cast hboth.2

/-- **Sizes are read back**, except for the one that is read as an `int` and without units: it
has to be an `int` and to be written without a unit. -/
theorem bytes_read_back_iff {memtoll atoi : Bytes → ℤ} (hmem : ReadsScaled memtoll)
    (hint : ReadsDigits atoi) (o : BytesOption) {n : ℤ} (hpos : 0 ≤ n) (hmax : n < 2 ^ 63) :
    o.read memtoll atoi (rewriteConfigFormatMemory n) = n ↔
      (o = .replBacklogTtl → (n = 0 ∨ ¬ 1024 ∣ n) ∧ n < 2 ^ 31) := by
  obtain ⟨n, rfl⟩ := Int.eq_ofNat_of_zero_le hpos
  obtain ⟨q, u, hq, htext, hone⟩ := format_eq n
  have hfit : q * u.size < 2 ^ 63 := by
    rw [← hq]
    exact_mod_cast hmax
  rw [htext]
  by_cases ho : o = .replBacklogTtl
  · subst ho
    have hread : q < 2 ^ 31 → atoi (decimal q ++ u.suffix) = q :=
      fun hlt => hint.digits q u.suffix hlt u.suffix_not_digit
    have hiff : ((n : ℤ) = 0 ∨ ¬ (1024 : ℤ) ∣ n) ↔ u.size = 1 := by
      rw [hone]
      exact_mod_cast Iff.rfl
    simp only [BytesOption.read, forall_const, hiff]
    constructor
    · intro hsame
      have hlt : (n : ℤ) < 2 ^ 31 := hsame ▸ (hint.isInt _).2
      refine ⟨?_, hlt⟩
      -- a quotient by a larger unit is smaller
      have hle : q ≤ n := hq ▸ Nat.le_mul_of_pos_right q u.size_pos
      rw [hread (hle.trans_lt (by exact_mod_cast hlt))] at hsame
      have hqn : q = q * u.size := (Int.ofNat.inj hsame).trans hq
      rcases Nat.eq_zero_or_pos q with rfl | hqpos
      · exact hone.mpr (.inl (hq.trans (Nat.zero_mul _)))
      · exact Nat.eq_of_mul_eq_mul_left hqpos (hqn.symm.trans (Nat.mul_one q).symm)
    · rintro ⟨hu, hlt⟩
      rw [hu, Nat.mul_one] at hq
      rw [hread (by rw [← hq]; exact_mod_cast hlt), hq]
  · refine iff_of_true ?_ fun h => absurd h ho
    have hread : o.read memtoll atoi = memtoll := by
      cases o <;> first | rfl | exact absurd rfl ho
    rw [hread, hmem q u hfit, ← hq]

/-! ### Conversions -/

/-- The digits at the beginning of a string, and what follows them. -/
def leadingDigits (s : Bytes) : Bytes × Bytes :=
  (s.takeWhile fun b => 48 ≤ b && b ≤ 57, s.dropWhile fun b => 48 ≤ b && b ≤ 57)

theorem leadingDigits_decimal (n : ℕ) {s : Bytes} (hs : ∀ b ∈ s.head?, ¬ (48 ≤ b ∧ b ≤ 57)) :
    leadingDigits (decimal n ++ s) = (decimal n, s) := by
  have hdigits : ∀ b ∈ decimal n, (48 ≤ b && b ≤ 57 : Bool) = true := by
    intro b hb
    simpa using decimal_digit n b hb
  have htail : s.takeWhile (fun b => 48 ≤ b && b ≤ 57) = [] ∧
      s.dropWhile (fun b => 48 ≤ b && b ≤ 57) = s := by
    cases s with
    | nil => exact ⟨rfl, rfl⟩
    | cons c s =>
      have hc : (48 ≤ c && c ≤ 57 : Bool) = false := by simpa using hs c rfl
      exact ⟨List.takeWhile_cons_of_neg (by simp [hc]), List.dropWhile_cons_of_neg (by simp [hc])⟩
  rw [leadingDigits, List.takeWhile_append_of_pos hdigits, List.dropWhile_append_of_pos hdigits,
    htail.1, htail.2, List.append_nil]

/-- The number of the leading digits. -/
def leadingNumber (s : Bytes) : ℕ :=
  Nat.ofDigits 10 ((leadingDigits s).1.map fun b => b.toNat - 48).reverse

theorem leadingNumber_decimal (n : ℕ) {s : Bytes} (hs : ∀ b ∈ s.head?, ¬ (48 ≤ b ∧ b ≤ 57)) :
    leadingNumber (decimal n ++ s) = n := by
  rw [leadingNumber, leadingDigits_decimal n hs, ofDigits_decimal]

/-- A conversion of leading digits to an `int`. -/
def plainAtoi (s : Bytes) : ℤ := (leadingNumber s : ℤ).bmod (2 ^ 32)

/-- A conversion with units. -/
def plainMemtoll (s : Bytes) : ℤ :=
  leadingNumber s * (if (leadingDigits s).2 = [107, 98] then 1024
    else if (leadingDigits s).2 = [109, 98] then 1024 * 1024
    else if (leadingDigits s).2 = [103, 98] then 1024 * 1024 * 1024 else 1)

theorem plainAtoi_reads : ReadsDigits plainAtoi := by
  refine ⟨fun s => ?_, fun n s hn hs => ?_⟩
  · have hle : -(2 ^ 32 / 2 : ℤ) ≤ plainAtoi s := Int.le_bmod (by norm_num)
    have hlt : plainAtoi s < (2 ^ 32 + 1) / 2 := Int.bmod_lt (by norm_num)
    omega
  · have hnumber : plainAtoi (decimal n ++ s) = (n : ℤ).bmod (2 ^ 32) :=
      congrArg (fun k : ℕ => (k : ℤ).bmod (2 ^ 32)) (leadingNumber_decimal n hs)
    exact hnumber.trans (Int.bmod_eq_of_le (by omega) (by omega))

theorem plainMemtoll_reads : ReadsScaled plainMemtoll := by
  intro n u _
  rw [plainMemtoll, leadingNumber_decimal n u.suffix_not_digit,
    leadingDigits_decimal n u.suffix_not_digit]
  cases u <;> simp [Scale.suffix, Scale.size]

/-- A megabyte is read back, and so is a time of an hour. -/
theorem bytes_read_back_iff_megabyte :
    BytesOption.maxmemory.read plainMemtoll plainAtoi (rewriteConfigFormatMemory 1048576) =
        1048576 ∧
      BytesOption.replBacklogTtl.read plainMemtoll plainAtoi (rewriteConfigFormatMemory 3600) =
        3600 := by
  have hiff := @bytes_read_back_iff _ _ plainMemtoll_reads plainAtoi_reads
  exact ⟨(hiff .maxmemory (by decide) (by decide)).mpr (by decide),
    (hiff .replBacklogTtl (by decide) (by decide)).mpr fun _ => by decide⟩

/-- 1024 seconds are written as `1kb` and read as one second. -/
theorem backlog_ttl_changes :
    rewriteConfigFormatMemory 1024 = [49, 107, 98] ∧
      BytesOption.replBacklogTtl.read plainMemtoll plainAtoi (rewriteConfigFormatMemory 1024)
        = 1 := by
  have htext : rewriteConfigFormatMemory 1024 = decimal 1 ++ [107, 98] := by
    simp [rewriteConfigFormatMemory, decimalInt]
  have hone : decimal 1 = [49] := by simp [decimal]
  refine ⟨by rw [htext, hone]; rfl, ?_⟩
  rw [htext, BytesOption.read]
  exact plainAtoi_reads.digits 1 [107, 98] (by decide) (by simp)

end Config
