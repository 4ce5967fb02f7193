/-
Quoting and splitting argument lines (`sdscatrepr`, `sdssplitargs` of sds.c).

`sdssplitargs` reads a C string: what follows the first NUL does not count, and
the end of the byte list stands for the terminating NUL.  Characters are
classified as in the C locale, in which the server runs.

`sdssplitargs_reprLine` is the round trip: splitting the quoted strings joined by
blanks gives back the strings; `quoting_round_trip` is the same for a line that is built
string by string.
-/
import DecomposeRedis.Sds
import Mathlib.Data.List.TakeWhile

namespace Sds

/-! ### Character classes -/

/-- `isspace` -/
def isspace (c : UInt8) : Bool := c = 32 || (9 ≤ c && c ≤ 13)

/-- `isprint` -/
def isprint (c : UInt8) : Bool := 32 ≤ c && c ≤ 126

/-- `is_hex_digit` -/
def isHexDigit (c : UInt8) : Bool :=
  (48 ≤ c && c ≤ 57) || (97 ≤ c && c ≤ 102) || (65 ≤ c && c ≤ 70)

/-- `hex_digit_to_int` -/
def hexDigitToInt (c : UInt8) : UInt8 :=
  if 48 ≤ c && c ≤ 57 then c - 48
  else if 97 ≤ c && c ≤ 102 then c - 87
  else if 65 ≤ c && c ≤ 70 then c - 55
  else 0

/-- The digit that `%02x` prints. -/
def hexDigit (n : UInt8) : UInt8 := if n < 10 then 48 + n else 87 + n

/-! ### Quoting -/

/-- What `sdscatrepr` appends for one byte. -/
def reprByte (c : UInt8) : Bytes :=
  if c = 92 || c = 34 then [92, c]
  else if c = 10 then [92, 110]
  else if c = 13 then [92, 114]
  else if c = 9 then [92, 116]
  else if c = 7 then [92, 97]
  else if c = 8 then [92, 98]
  else if isprint c then [c]
  else [92, 120, hexDigit (c / 16), hexDigit (c % 16)]

/-- `sdscatrepr` -/
def sdscatrepr (s p : Bytes) : Bytes := s ++ 34 :: p.flatMap reprByte ++ [34]

/-! ### Splitting -/

/-- The flags `inq` and `insq`. -/
inductive Quotes where
  | unquoted
  | double
  | single

/-- The character behind an escape in double quotes. -/
def unescape (c : UInt8) : UInt8 :=
  if c = 110 then 10
  else if c = 114 then 13
  else if c = 116 then 9
  else if c = 98 then 8
  else if c = 97 then 7
  else c

/-- The loop that gets a token: the token and what follows it.  There is no result
for unterminated quotes and for a closing quote that is not followed by a space
or the end of the line. -/
def getToken : Quotes → Bytes → Bytes → Option (Bytes × Bytes)
  | .double, current, 92 :: 120 :: h₁ :: h₂ :: p =>
    if isHexDigit h₁ && isHexDigit h₂ then
      getToken .double (current ++ [hexDigitToInt h₁ * 16 + hexDigitToInt h₂]) p
    else getToken .double (current ++ [unescape 120]) (h₁ :: h₂ :: p)
  | .double, current, 92 :: c :: p => getToken .double (current ++ [unescape c]) p
  | .double, current, 34 :: p => if p.head?.all isspace then some (current, p) else none
  | .double, _, [] => none
  | .double, current, c :: p => getToken .double (current ++ [c]) p
  | .single, current, 92 :: 39 :: p => getToken .single (current ++ [39]) p
  | .single, current, 39 :: p => if p.head?.all isspace then some (current, p) else none
  | .single, _, [] => none
  | .single, current, c :: p => getToken .single (current ++ [c]) p
  | .unquoted, current, [] => some (current, [])
  | .unquoted, current, c :: p =>
    if c = 32 || c = 10 || c = 13 || c = 9 then some (current, p)
    else if c = 34 then getToken .double current p
    else if c = 39 then getToken .single current p
    else getToken .unquoted (current ++ [c]) p

/-- The loop over the tokens.  Each one takes a character or more, so the length of
the line bounds their number. -/
def splitLoop : ℕ → List Bytes → Bytes → Option (List Bytes)
  | 0, vector, p => if p.dropWhile isspace = [] then some vector else none
  | fuel + 1, vector, p =>
    match p.dropWhile isspace with
    | [] => some vector
    | c :: p => (getToken .unquoted [] (c :: p)).bind fun x => splitLoop fuel (vector ++ [x.1]) x.2

/-- `sdssplitargs` -/
def sdssplitargs (line : Bytes) : Option (List Bytes) :=
  let p := line.takeWhile (· ≠ 0)
  splitLoop p.length [] p

/-! ### The round trip -/

/-- A line with the quoted strings, separated by blanks. -/
def reprLine (args : List Bytes) : Bytes := [32].intercalate (args.map (sdscatrepr []))

/-- A property of all bytes is decided by trying them. -/
theorem forall_byte {P : UInt8 → Prop} (h : ∀ n : Fin 256, P (UInt8.ofFin n)) (c : UInt8) : P c :=
  h c.toFin

theorem hexDigit_spec (c : UInt8) :
    isHexDigit (hexDigit (c / 16)) = true ∧ isHexDigit (hexDigit (c % 16)) = true ∧
      hexDigitToInt (hexDigit (c / 16)) * 16 + hexDigitToInt (hexDigit (c % 16)) = c :=
  forall_byte (P := fun c => isHexDigit (hexDigit (c / 16)) = true ∧
    isHexDigit (hexDigit (c % 16)) = true ∧
    hexDigitToInt (hexDigit (c / 16)) * 16 + hexDigitToInt (hexDigit (c % 16)) = c)
    (by decide +kernel) c

/-- Quoted strings are printable. -/
theorem isprint_of_mem_reprByte (c : UInt8) : ∀ b ∈ reprByte c, isprint b = true :=
  List.all_eq_true.mp (forall_byte (P := fun c => (reprByte c).all isprint = true)
    (by decide +kernel) c)

theorem getToken_char {c : UInt8} (h₁ : c ≠ 92) (h₂ : c ≠ 34) (current p : Bytes) :
    getToken .double current (c :: p) = getToken .double (current ++ [c]) p := by
  rw [getToken]
  all_goals simp_all

theorem getToken_escape {c : UInt8} (h : c ≠ 120) (current p : Bytes) :
    getToken .double current (92 :: c :: p) = getToken .double (current ++ [unescape c]) p := by
  rw [getToken]
  simp_all

/-- In double quotes, the quoted form of a byte is read as the byte. -/
theorem getToken_reprByte (c : UInt8) (current p : Bytes) :
    getToken .double current (reprByte c ++ p) = getToken .double (current ++ [c]) p := by
  rw [reprByte]
  split_ifs with h₁ h₂ h₃ h₄ h₅ h₆ hprint
  · -- A backslash or a quote stands for itself.
    simp only [Bool.or_eq_true, decide_eq_true_eq] at h₁
    rcases h₁ with rfl | rfl
    · exact getToken_escape (by decide) current p
    · exact getToken_escape (by decide) current p
  · rw [h₂]
    exact getToken_escape (by decide) current p
  · rw [h₃]
    exact getToken_escape (by decide) current p
  · rw [h₄]
    exact getToken_escape (by decide) current p
  · rw [h₅]
    exact getToken_escape (by decide) current p
  · rw [h₆]
    exact getToken_escape (by decide) current p
  · simp only [Bool.or_eq_true, decide_eq_true_eq, not_or] at h₁
    exact getToken_char h₁.1 h₁.2 current p
  · obtain ⟨hx, hy, hval⟩ := hexDigit_spec c
    show getToken .double current (92 :: 120 :: hexDigit (c / 16) :: hexDigit (c % 16) :: p) = _
    rw [getToken, hx, hy, Bool.and_self, if_pos rfl, hval]

theorem getToken_quoted (a : Bytes) {p : Bytes} (hp : p.head?.all isspace = true)
    (current : Bytes) :
    getToken .double current (a.flatMap reprByte ++ 34 :: p) = some (current ++ a, p) := by
  induction a generalizing current with
  | nil =>
    show getToken .double current (34 :: p) = some (current ++ [], p)
    rw [getToken, if_pos hp, List.append_nil]
  | cons c a ih =>
    rw [List.flatMap_cons, List.append_assoc, getToken_reprByte, ih, List.append_assoc]
    rfl

/-- A quoted string is one token. -/
theorem getToken_sdscatrepr (a : Bytes) {p : Bytes} (hp : p.head?.all isspace = true) :
    getToken .unquoted [] (sdscatrepr [] a ++ p) = some (a, p) := by
  have hline : sdscatrepr [] a ++ p = 34 :: (a.flatMap reprByte ++ 34 :: p) := by
    simp [sdscatrepr]
  rw [hline, getToken]
  exact getToken_quoted a hp []

theorem reprLine_cons_cons (a b : Bytes) (args : List Bytes) :
    reprLine (a :: b :: args) = sdscatrepr [] a ++ 32 :: reprLine (b :: args) := by
  simp [reprLine, List.intercalate]

theorem splitLoop_reprLine (args : List Bytes) {fuel : ℕ} (hfuel : args.length ≤ fuel)
    (vector : List Bytes) : splitLoop fuel vector (reprLine args) = some (vector ++ args) := by
  -- The line starts with a quote, and blanks before it are skipped.
  have hquote : ∀ a p, (sdscatrepr [] a ++ p).dropWhile isspace = sdscatrepr [] a ++ p := by
    intro a p
    rfl
  induction args generalizing fuel vector with
  | nil =>
    cases fuel with
    | zero => simp [reprLine, splitLoop]
    | succ fuel => simp [reprLine, splitLoop]
  | cons a args ih =>
    obtain ⟨fuel, rfl⟩ : ∃ f, fuel = f + 1 := ⟨fuel - 1, by rw [List.length_cons] at hfuel; omega⟩
    have hfuel' : args.length ≤ fuel := by simpa using hfuel
    rcases args with _ | ⟨b, args⟩
    · have hline : reprLine [a] = sdscatrepr [] a ++ [] := by simp [reprLine]
      rw [hline, splitLoop, hquote]
      show (getToken .unquoted [] (sdscatrepr [] a ++ [])).bind _ = _
      rw [getToken_sdscatrepr a rfl, Option.bind_some]
      have hrest := ih hfuel' (vector ++ [a])
      rw [List.append_nil] at hrest
      exact hrest
    · rw [reprLine_cons_cons, splitLoop, hquote]
      show (getToken .unquoted [] (sdscatrepr [] a ++ 32 :: reprLine (b :: args))).bind _ = _
      rw [getToken_sdscatrepr a rfl, Option.bind_some]
      have hblank : splitLoop fuel (vector ++ [a]) (32 :: reprLine (b :: args))
          = splitLoop fuel (vector ++ [a]) (reprLine (b :: args)) := by
        cases fuel <;> rfl
      rw [hblank, ih hfuel' (vector ++ [a]), List.append_assoc]
      rfl

theorem isprint_of_mem_reprLine (args : List Bytes) : ∀ b ∈ reprLine args, isprint b = true := by
  have hquoted : ∀ a, ∀ b ∈ sdscatrepr [] a, isprint b = true := by
    intro a b hb
    simp only [sdscatrepr, List.nil_append, List.cons_append, List.mem_cons, List.mem_append,
      List.mem_flatMap, List.not_mem_nil, or_false] at hb
    rcases hb with rfl | ⟨c, -, hc⟩ | rfl
    · rfl
    · exact isprint_of_mem_reprByte c b hc
    · rfl
  intro b hb
  induction args with
  | nil => simp [reprLine] at hb
  | cons a args ih =>
    rcases args with _ | ⟨a', args⟩
    · exact hquoted a b (by simpa [reprLine] using hb)
    · rw [reprLine_cons_cons, List.mem_append, List.mem_cons] at hb
      rcases hb with hb | rfl | hb
      · exact hquoted a b hb
      · rfl
      · exact ih hb

theorem length_le_reprLine (args : List Bytes) : args.length ≤ (reprLine args).length := by
  induction args with
  | nil => simp
  | cons a args ih =>
    rcases args with _ | ⟨a', args⟩
    · simp [reprLine, sdscatrepr]
    · have hlen : (reprLine (a :: a' :: args)).length
          = (sdscatrepr [] a).length + ((reprLine (a' :: args)).length + 1) := by
        rw [reprLine_cons_cons, List.length_append, List.length_cons]
      rw [List.length_cons]
      omega

/-- Splitting undoes quoting. -/
theorem sdssplitargs_reprLine (args : List Bytes) :
    sdssplitargs (reprLine args) = some args := by
  have hnul : (reprLine args).takeWhile (· ≠ 0) = reprLine args := by
    refine List.takeWhile_eq_self_iff.mpr fun b hb => ?_
    have hprint := isprint_of_mem_reprLine args b hb
    simp only [ne_eq, decide_not, Bool.not_eq_eq_eq_not, Bool.not_true, decide_eq_false_iff_not]
    rintro rfl
    cases hprint
  rw [sdssplitargs, hnul]
  exact splitLoop_reprLine args (length_le_reprLine args) []

/-- The line as it is built, one string after the other. -/
def catReprs (line : Bytes) (args : List Bytes) : Bytes :=
  args.foldl (fun line a => sdscatrepr (if line = [] then line else line ++ [32]) a) line

theorem catReprs_append (line : Bytes) (hline : line ≠ []) (args : List Bytes) :
    catReprs line args = line ++ args.flatMap fun a => 32 :: sdscatrepr [] a := by
  induction args generalizing line with
  | nil => simp [catReprs]
  | cons a args ih =>
    have hne : sdscatrepr (line ++ [32]) a ≠ [] := by simp [sdscatrepr]
    have hstep : catReprs line (a :: args) = catReprs (sdscatrepr (line ++ [32]) a) args := by
      rw [catReprs, List.foldl_cons, if_neg hline]
      rfl
    rw [hstep, ih _ hne, List.flatMap_cons]
    simp [sdscatrepr]

theorem reprLine_cons (a : Bytes) (args : List Bytes) :
    reprLine (a :: args) = sdscatrepr [] a ++ args.flatMap fun a => 32 :: sdscatrepr [] a := by
  induction args generalizing a with
  | nil => simp [reprLine]
  | cons b args ih => rw [reprLine_cons_cons, ih, List.flatMap_cons, List.cons_append]

/-- **Splitting undoes quoting**, for any strings, whether the quoted forms are joined by
blanks or appended to the line one by one. -/
theorem quoting_round_trip (args : List Bytes) :
    sdssplitargs ([32].intercalate (args.map (sdscatrepr []))) = some args ∧
      sdssplitargs (catReprs [] args) = some args := by
  refine ⟨sdssplitargs_reprLine args, ?_⟩
  have hline : catReprs [] args = reprLine args := by
    cases args with
    | nil => rfl
    | cons a args =>
      have hne : sdscatrepr [] a ≠ [] := by simp [sdscatrepr]
      have hstep : catReprs [] (a :: args) = catReprs (sdscatrepr [] a) args := rfl
      rw [hstep, catReprs_append _ hne, reprLine_cons]
  rw [hline]
  exact sdssplitargs_reprLine args

end Sds
