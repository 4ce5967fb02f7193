/-
The grammar of RESP, versions 2 and 3.

`value` takes one value off the front of a byte string: a line that starts with the tag
of its kind, and for strings and aggregates what the line announces.  `Reads v s x` says
that the bytes `s` are the value `x`, whatever comes after them; there is one rule for
each kind of value.  `Reads.parse` says that such bytes are that value and nothing else,
and `Reads.parse_append` and `parse_short` that bytes with too much or too little are no
value.
-/
import Mathlib.Data.List.Forall2
import Mathlib.Data.Nat.Digits.Defs

namespace Resp

abbrev Bytes := List UInt8

inductive Version where
  | resp2
  | resp3
  deriving DecidableEq

/-- The kinds of aggregates.  A map has its keys and values in turn. -/
inductive Kind where
  | array
  | map
  | set
  | push
  deriving DecidableEq

inductive Value where
  | simple (s : Bytes)
  | error (s : Bytes)
  | integer (n : ℤ)
  | bulk (s : Bytes)
  | verbatim (ext s : Bytes)
  | null
  | bool (b : Bool)
  | aggregate (kind : Kind) (items : List Value)

/-- What the first byte of a value says. -/
inductive Tag where
  | simple
  | error
  | integer
  | bulk
  | verbatim
  | null
  | bool
  | aggregate (kind : Kind)
  deriving DecidableEq

/-- The first byte of a value. -/
def Tag.byte : Tag → UInt8
  | .simple => 43
  | .error => 45
  | .integer => 58
  | .bulk => 36
  | .verbatim => 61
  | .null => 95
  | .bool => 35
  | .aggregate .array => 42
  | .aggregate .map => 37
  | .aggregate .set => 126
  | .aggregate .push => 62

def Tag.all : List Tag :=
  [.simple, .error, .integer, .bulk, .verbatim, .null, .bool, .aggregate .array, .aggregate .map,
    .aggregate .set, .aggregate .push]

/-- The tags of a version. -/
def Tag.known : Version → Tag → Bool
  | .resp2, .simple | .resp2, .error | .resp2, .integer | .resp2, .bulk | .resp2,
      .aggregate .array => true
  | .resp2, _ => false
  | .resp3, _ => true

/-- The tag of a byte. -/
def Tag.ofByte (v : Version) (b : UInt8) : Option Tag :=
  Tag.all.find? fun t => t.byte = b && t.known v

/-! ### The parser -/

/-- A line, without its end, and what comes after it. -/
def splitLine : Bytes → Option (Bytes × Bytes)
  | [] => none
  | 13 :: 10 :: rest => some ([], rest)
  | b :: rest => if b = 13 ∨ b = 10 then none else (splitLine rest).map fun x => (b :: x.1, x.2)

/-- A property of the bytes of a line is decided along the line, not by trying all bytes. -/
instance decidableBallLine (line : Bytes) (P : UInt8 → Prop) [DecidablePred P] :
    Decidable (∀ b ∈ line, P b) :=
  List.decidableBAll P line

/-- A number in decimal. -/
def natural (line : Bytes) : Option ℕ :=
  if line ≠ [] ∧ ∀ b ∈ line, 48 ≤ b ∧ b ≤ 57 then
    some (Nat.ofDigits 10 (line.map fun b => b.toNat - 48).reverse)
  else none

/-- A number with a sign. -/
def integer : Bytes → Option ℤ
  | 45 :: line => (natural line).map fun n : ℕ => -(n : ℤ)
  | line => (natural line).map fun n : ℕ => (n : ℤ)

/-- `n` bytes and the end of a line. -/
def payload (n : ℕ) (s : Bytes) : Option (Bytes × Bytes) :=
  if n ≤ s.length ∧ (s.drop n).take 2 = [13, 10] then some (s.take n, s.drop (n + 2)) else none

/-- Some values, one after the other. -/
def many (p : Bytes → Option (Value × Bytes)) : ℕ → Bytes → Option (List Value × Bytes)
  | 0, s => some ([], s)
  | n + 1, s => (p s).bind fun x => (many p n x.2).map fun y => (x.1 :: y.1, y.2)

/-- How many values an aggregate of length `n` has. -/
def Kind.size : Kind → ℕ → ℕ
  | .map, n => 2 * n
  | _, n => n

/-- A value after its first line; `p` reads the values of an aggregate. -/
def body (v : Version) (p : Bytes → Option (Value × Bytes)) (line rest : Bytes) :
    Tag → Option (Value × Bytes)
  | .simple => some (.simple line, rest)
  | .error => some (.error line, rest)
  | .integer => (integer line).map fun n => (.integer n, rest)
  | .bulk =>
    -- the null of the old version
    if v = .resp2 ∧ line = [45, 49] then some (.null, rest)
    else (natural line).bind fun n => (payload n rest).map fun x => (.bulk x.1, x.2)
  | .verbatim =>
    (natural line).bind fun n =>
      (payload n rest).bind fun x =>
        if x.1[3]? = some 58 then some (.verbatim (x.1.take 3) (x.1.drop 4), x.2) else none
  | .null => if line = [] then some (.null, rest) else none
  | .bool =>
    if line = [116] then some (.bool true, rest) else if line = [102] then
      some (.bool false, rest) else none
  | .aggregate kind =>
    if v = .resp2 ∧ line = [45, 49] then some (.null, rest)
    else (natural line).bind fun n => (many p (kind.size n) rest).map fun x =>
      (.aggregate kind x.1, x.2)

/-- Take a value off the front; `fuel` bounds how deep it is. -/
def value (v : Version) : ℕ → Bytes → Option (Value × Bytes)
  | fuel + 1, b :: s =>
    (Tag.ofByte v b).bind fun tag => (splitLine s).bind fun x => body v (value v fuel) x.1 x.2 tag
  | _, _ => none

/-- The one value that a byte string is. -/
def parse (v : Version) (s : Bytes) : Option Value :=
  match value v s.length s with
  | some (x, []) => some x
  | _ => none

/-! ### Reading -/

/-- The bytes `s` are the value `x`. -/
def Reads (v : Version) (s : Bytes) (x : Value) : Prop :=
  ∀ fuel rest, s.length ≤ fuel → value v fuel (s ++ rest) = some (x, rest)

/-- No end of a line. -/
def Clean (line : Bytes) : Prop := ∀ b ∈ line, b ≠ 13 ∧ b ≠ 10

instance (line : Bytes) : Decidable (Clean line) := inferInstanceAs (Decidable (∀ b ∈ line, _))

section

variable {v : Version} {s line : Bytes} {x : Value} {tag : Tag} {ss : List Bytes} {xs : List Value}
  {n : ℕ}

theorem Reads.parse (h : Reads v s x) : parse v s = some x := by
  have hvalue := h s.length [] le_rfl
  rw [List.append_nil] at hvalue
  rw [Resp.parse, hvalue]

theorem Reads.ne_nil (h : Reads v s x) : s ≠ [] := by
  rintro rfl
  have hnone : (none : Option (Value × Bytes)) = some (x, []) := h 0 [] le_rfl
  cases hnone

theorem Tag.ofByte_byte (h : tag.known v) : Tag.ofByte v tag.byte = some tag := by
  cases v with
  | resp2 =>
    rcases tag with _ | _ | _ | _ | _ | _ | _ | kind <;> first | rfl | cases h |
      (cases kind <;> first | rfl | cases h)
  | resp3 => rcases tag with _ | _ | _ | _ | _ | _ | _ | kind <;> first | rfl | (cases kind <;> rfl)

theorem splitLine_append (h : Clean line) (rest : Bytes) :
    splitLine (line ++ 13 :: 10 :: rest) = some (line, rest) := by
  induction line with
  | nil => rfl
  | cons b line ih =>
    have hb := h b List.mem_cons_self
    have hrest := ih fun c hc => h c (List.mem_cons_of_mem b hc)
    rw [List.cons_append, splitLine]
    · rw [if_neg (by simp [hb]), hrest]
      rfl
    · rintro rest' rfl
      exact absurd rfl hb.1

/-- A value is its first line and what `body` reads after it. -/
theorem reads_of_body (tag : Tag) {data : Bytes} (htag : tag.known v) (hline : Clean line)
    (hbody : ∀ fuel rest, data.length ≤ fuel → body v (value v fuel) line (data ++ rest) tag
      = some (x, rest)) :
    Reads v (tag.byte :: (line ++ 13 :: 10 :: data)) x := by
  intro fuel rest hfuel
  rw [List.length_cons] at hfuel
  obtain ⟨fuel, rfl⟩ := Nat.exists_eq_add_one_of_ne_zero (Nat.ne_zero_of_lt hfuel)
  have hdata : data.length ≤ fuel := by
    simp only [List.length_append, List.length_cons] at hfuel
    omega
  rw [List.cons_append, List.append_assoc, List.cons_append, List.cons_append, value,
    Tag.ofByte_byte htag, Option.bind_some, splitLine_append hline, Option.bind_some]
  exact hbody fuel rest hdata

/-- A value that is one line. -/
theorem reads_line (tag : Tag) (line : Bytes) (htag : tag.known v) (hline : Clean line)
    (hbody : ∀ fuel rest, body v (value v fuel) line rest tag = some (x, rest)) :
    Reads v (tag.byte :: (line ++ [13, 10])) x :=
  reads_of_body tag htag hline fun fuel rest _ => hbody fuel rest

theorem reads_simple (h : Clean line) : Reads v (43 :: (line ++ [13, 10])) (.simple line) :=
  reads_line .simple line (by cases v <;> rfl) h fun _ _ => rfl

theorem reads_error (h : Clean line) : Reads v (45 :: (line ++ [13, 10])) (.error line) :=
  reads_line .error line (by cases v <;> rfl) h fun _ _ => rfl

theorem reads_integer {n : ℤ} (hclean : Clean line) (h : integer line = some n) :
    Reads v (58 :: (line ++ [13, 10])) (.integer n) := by
  refine reads_line .integer line (by cases v <;> rfl) hclean fun _ rest => ?_
  rw [body, h]
  rfl

theorem reads_null : Reads .resp3 [95, 13, 10] .null :=
  reads_line .null [] rfl (by decide) fun _ _ => rfl

/-- The null of the old version is a string of length -1. -/
theorem reads_null_bulk : Reads .resp2 [36, 45, 49, 13, 10] .null :=
  reads_line .bulk [45, 49] rfl (by decide) fun _ _ => rfl

theorem reads_bool (b : Bool) : Reads .resp3 [35, if b then 116 else 102, 13, 10] (.bool b) := by
  cases b
  · exact reads_line .bool [102] rfl (by decide) fun _ _ => rfl
  · exact reads_line .bool [116] rfl (by decide) fun _ _ => rfl

theorem payload_append (s rest : Bytes) :
    payload s.length (s ++ 13 :: 10 :: rest) = some (s, rest) := by
  rw [payload, if_pos]
  · simp
  · simp

/-- A number is not negative. -/
theorem line_ne_of_natural (h : natural line = some n) : line ≠ [45, 49] := by
  rintro rfl
  cases h

theorem clean_of_natural (h : natural line = some n) : Clean line := by
  rw [natural] at h
  split_ifs at h with hdigits
  intro b hb
  have hdigit := hdigits.2 b hb
  constructor <;>
  · rintro rfl
    exact absurd hdigit (by decide)

theorem reads_bulk (h : natural line = some s.length) :
    Reads v (36 :: (line ++ 13 :: 10 :: (s ++ [13, 10]))) (.bulk s) := by
  refine reads_of_body .bulk (by cases v <;> rfl) (clean_of_natural h) fun _ rest _ => ?_
  rw [body, if_neg fun hnull => line_ne_of_natural h hnull.2, h, List.append_assoc]
  simp [payload_append]

theorem reads_verbatim {ext : Bytes} (hext : ext.length = 3)
    (h : natural line = some (s.length + 4)) :
    Reads .resp3 (61 :: (line ++ 13 :: 10 :: (ext ++ 58 :: s ++ [13, 10]))) (.verbatim ext s) := by
  refine reads_of_body .verbatim rfl (clean_of_natural h) fun _ rest _ => ?_
  have hlength : s.length + 4 = (ext ++ 58 :: s).length := by
    simp [hext]
    omega
  have hcolon : (ext ++ 58 :: s)[3]? = some 58 := by
    rw [← hext]
    simp
  rw [body, h, Option.bind_some, hlength, List.append_assoc]
  simp only [List.cons_append, List.nil_append, payload_append, Option.bind_some, hcolon, if_true]
  have htake : (ext ++ 58 :: s).take 3 = ext := by
    rw [← hext, List.take_left]
  have hdrop : (ext ++ 58 :: s).drop 4 = s := by
    rw [List.append_cons, show 4 = (ext ++ [58]).length by simp [hext], List.drop_left]
  rw [htake, hdrop]

/-- Values that can be read one by one can be read together. -/
theorem many_append (h : List.Forall₂ (Reads v) ss xs) {fuel : ℕ} (hfuel : ss.flatten.length ≤ fuel)
    (rest : Bytes) :
    many (value v fuel) xs.length (ss.flatten ++ rest) = some (xs, rest) := by
  induction h with
  | nil => rfl
  | @cons s x ss xs hx _ ih =>
    rw [List.flatten_cons, List.length_append] at hfuel
    rw [List.flatten_cons, List.append_assoc, List.length_cons, many, hx fuel _ (by omega),
      Option.bind_some, ih (by omega)]
    rfl

theorem reads_aggregate {kind : Kind}
    (hknown : (Tag.aggregate kind).known v) (hline : natural line = some n)
    (hn : xs.length = kind.size n) (h : List.Forall₂ (Reads v) ss xs) :
    Reads v ((Tag.aggregate kind).byte :: (line ++ 13 :: 10 :: ss.flatten))
      (.aggregate kind xs) := by
  refine reads_of_body (.aggregate kind) hknown (clean_of_natural hline) fun fuel rest hfuel => ?_
  rw [body, if_neg fun hnull => line_ne_of_natural hline hnull.2, hline, Option.bind_some, ← hn,
    many_append h hfuel]
  rfl

/-! ### What is not one value -/

/-- Nothing comes after the value. -/
theorem Reads.parse_append {more : Bytes} (h : Reads v s x) (hmore : more ≠ []) :
    Resp.parse v (s ++ more) = none := by
  have hvalue := h (s ++ more).length more (by simp)
  rw [Resp.parse, hvalue]
  rcases more with _ | ⟨b, more⟩
  · exact absurd rfl hmore
  · rfl

/-- Values are missing. -/
theorem many_short (h : List.Forall₂ (Reads v) ss xs) {fuel : ℕ}
    (hfuel : ss.flatten.length ≤ fuel) (hn : xs.length < n) :
    many (value v fuel) n ss.flatten = none := by
  induction h generalizing n with
  | nil =>
    obtain ⟨n, rfl⟩ := Nat.exists_eq_add_of_lt hn
    rw [many]
    cases fuel <;> rfl
  | @cons s x ss xs hx _ ih =>
    obtain ⟨n, rfl⟩ := Nat.exists_eq_add_of_lt (Nat.lt_of_le_of_lt (Nat.zero_le _) hn)
    rw [List.flatten_cons, List.length_append] at hfuel
    rw [List.length_cons] at hn
    rw [List.flatten_cons, Nat.zero_add, many, hx fuel _ (by omega), Option.bind_some,
      ih (by omega) (by omega)]
    rfl

theorem parse_short {kind : Kind}
    (hknown : (Tag.aggregate kind).known v) (hline : natural line = some n)
    (hn : xs.length < kind.size n) (h : List.Forall₂ (Reads v) ss xs) :
    Resp.parse v ((Tag.aggregate kind).byte :: (line ++ 13 :: 10 :: ss.flatten)) = none := by
  rw [Resp.parse, List.length_cons, value, Tag.ofByte_byte hknown, Option.bind_some,
    splitLine_append (clean_of_natural hline), Option.bind_some, body,
    if_neg fun hnull => line_ne_of_natural hline hnull.2, hline, Option.bind_some,
    many_short h (by simp; omega) hn]
  rfl

end

end Resp
