/-
Splitting and joining.

`Joints sep tokens` says that sep is met first where the tokens are joined, from the left
to the right.  Every string has such tokens (`exists_joints`), and `sdssplitlen` finds
them (`sdssplitlen_joints`), so that splitting and joining are inverse:

* `split_join_inverse` — both ways, but for the one empty token, of which the join is the
  empty string without tokens, and as long as the `int` for the size of the array does
  not overflow.
-/
import DecomposeRedis.Sds

namespace Sds

variable {s sep t : Bytes} {ts tokens : List Bytes}

/-- The size of the array is doubled if there is no room for the next token and the final
one.  It is an `int`. -/
def growSlots (slots elements : ℕ) : Option ℕ :=
  if slots < elements + 2 then if slots * 2 < 2 ^ 31 then some (slots * 2) else none else some slots

/-- The loop of `sdssplitlen` from position `j` on, with the token from `start` on. -/
def splitScan (s sep : Bytes) : ℕ → ℕ → ℕ → ℕ → List Bytes → Option (List Bytes)
  | 0, _, _, _, _ => none
  | fuel + 1, j, start, slots, tokens =>
    if (j : ℤ) < s.length - (sep.length - 1) then do
      let slots ← growSlots slots tokens.length
      if (s.drop j).take sep.length = sep then
        -- `j = j+seplen-1`, and then `j++` of the loop
        splitScan s sep fuel (j + sep.length) (j + sep.length) slots
          (tokens ++ [(s.drop start).take (j - start)])
      else splitScan s sep fuel (j + 1) start slots tokens
    else some (tokens ++ [(s.drop start).take (s.length - start)])

/-- `none` where NULL is returned, and where the size of the array overflows. -/
def sdssplitlen (s sep : Bytes) : Option (List Bytes) :=
  if sep.length < 1 then none
  else if s.length = 0 then some []
  else splitScan s sep (s.length + 1) 0 0 5 []

/-- The loop of `sdsjoinsds`. -/
def joinLoop (sep : Bytes) (argc : ℕ) : ℕ → Bytes → List Bytes → Bytes
  | _, join, [] => join
  | j, join, arg :: argv =>
    joinLoop sep argc (j + 1) (if j ≠ argc - 1 then join ++ arg ++ sep else join ++ arg) argv

def sdsjoinsds (argv : List Bytes) (sep : Bytes) : Bytes := joinLoop sep argv.length 0 [] argv

theorem joinLoop_eq {join : Bytes} {j n : ℕ} (hn : n = j + ts.length) :
    joinLoop sep n j join ts = join ++ sep.intercalate ts := by
  induction ts generalizing j join with
  | nil => simp [joinLoop]
  | cons t ts ih =>
    rw [List.length_cons] at hn
    rw [joinLoop, ih (by omega)]
    rcases ts with _ | ⟨t', ts⟩
    · rw [if_neg (by rw [hn]; simp)]
      simp
    · rw [List.length_cons] at hn
      rw [if_pos (by omega), List.intercalate_cons_cons]
      simp

theorem sdsjoinsds_eq (sep : Bytes) (ts : List Bytes) : sdsjoinsds ts sep = sep.intercalate ts :=
  joinLoop_eq (Nat.zero_add _).symm

/-- From the left to the right, sep is met first exactly at the joints. -/
def Joints (sep : Bytes) : List Bytes → Prop
  | [] => True
  | t :: ts => (∀ i < t.length, ¬ sep <+: (sep.intercalate (t :: ts)).drop i) ∧ Joints sep ts

theorem intercalate_cons_of_ne (ht : ts ≠ []) :
    sep.intercalate (t :: ts) = t ++ (sep ++ sep.intercalate ts) := by
  obtain ⟨t', ts, rfl⟩ := List.exists_cons_of_ne_nil ht
  rw [List.intercalate_cons_cons, List.append_assoc]

theorem prefix_intercalate : t <+: sep.intercalate (t :: ts) := by
  rcases ts with _ | ⟨t', ts⟩
  · simp
  · rw [intercalate_cons_of_ne (by simp)]
    exact List.prefix_append _ _

theorem length_le_intercalate (hsep : sep ≠ []) : ts.length ≤ (sep.intercalate ts).length + 1 := by
  have hpos := List.length_pos_iff.mpr hsep
  induction ts with
  | nil => exact Nat.zero_le _
  | cons t ts ih =>
    by_cases hts : ts = []
    · simp [hts]
    · rw [intercalate_cons_of_ne hts]
      simp only [List.length_cons, List.length_append]
      omega

/-- No token contains sep. -/
theorem Joints.not_infix (h : Joints sep ts) (hsep : sep ≠ []) : ∀ t ∈ ts, ¬ sep <:+: t := by
  induction ts with
  | nil => simp
  | cons t ts ih =>
    refine List.forall_mem_cons.mpr ⟨?_, ih h.2⟩
    rintro ⟨front, back, rfl⟩
    have hpos := List.length_pos_iff.mpr hsep
    refine h.1 front.length (by simp; omega) ?_
    obtain ⟨rest, hrest⟩ := @prefix_intercalate sep (front ++ sep ++ back) ts
    rw [← hrest]
    exact ⟨back ++ rest, by simp⟩

/-- Every string has such tokens. -/
theorem exists_joints (hsep : sep ≠ []) (s : Bytes) :
    ∃ t ts, Joints sep (t :: ts) ∧ sep.intercalate (t :: ts) = s := by
  classical
  induction hn : s.length using Nat.strong_induction_on generalizing s with
  | _ n ih =>
    by_cases hmet : ∃ i, sep <+: s.drop i
    · -- the first token ends where sep is met first
      obtain ⟨rest, hrest⟩ := Nat.find_spec hmet
      have hpos := List.length_pos_iff.mpr hsep
      have hlen := congrArg List.length hrest
      rw [List.length_append, List.length_drop] at hlen
      obtain ⟨t, ts, hjoints, hjoin⟩ := ih rest.length (by omega) rest rfl
      have hall : sep.intercalate (s.take (Nat.find hmet) :: t :: ts) = s := by
        rw [intercalate_cons_of_ne (by simp), hjoin, hrest, List.take_append_drop]
      refine ⟨_, _, ⟨fun i hi => ?_, hjoints⟩, hall⟩
      rw [hall]
      exact Nat.find_min hmet (by rw [List.length_take] at hi; omega)
    · exact ⟨s, [], ⟨fun i _ hi => hmet ⟨i, by simpa using hi⟩, trivial⟩, by simp⟩

/-- With fewer tokens the array is doubled without an overflow. -/
def maxTokens : ℕ := 5 * 2 ^ 28

theorem growSlots_spec {k elements : ℕ} (hk : k ≤ 28) (hfew : elements + 2 ≤ maxTokens) :
    ∃ k' ≤ 28, growSlots (5 * 2 ^ k) elements = some (5 * 2 ^ k') := by
  by_cases hroom : 5 * 2 ^ k < elements + 2
  · have hlt : k < 28 := by
      rcases hk.lt_or_eq with hlt | rfl
      · exact hlt
      · exact absurd (hroom.trans_le hfew) (lt_irrefl _)
    have hpow : 2 ^ (k + 1) ≤ 2 ^ 28 := Nat.pow_le_pow_right (by decide) hlt
    refine ⟨k + 1, hlt, ?_⟩
    rw [growSlots, if_pos hroom, if_pos (by omega), Nat.pow_succ, Nat.mul_assoc]
  · exact ⟨k, hk, if_neg hroom⟩

/-- The loop finds the tokens, at every position within the token that it reads. -/
theorem splitScan_spec {fuel start k n : ℕ} (hsep : sep ≠ []) (hn : n ≤ 28)
    (h : Joints sep (t :: ts)) (hjoin : sep.intercalate (t :: ts) = s.drop start)
    (hk : k ≤ t.length) (hj : start + k ≤ s.length) (hfuel : s.length < fuel + (start + k))
    (hfew : tokens.length + ts.length + 1 < maxTokens) :
    splitScan s sep fuel (start + k) start (5 * 2 ^ n) tokens = some (tokens ++ t :: ts) := by
  have hpos := List.length_pos_iff.mpr hsep
  induction fuel generalizing start k n tokens t ts with
  | zero => omega
  | succ fuel ih =>
    have hlen := congrArg List.length hjoin
    rw [List.length_drop] at hlen
    rw [splitScan]
    by_cases hloop : ((start + k : ℕ) : ℤ) < s.length - (sep.length - 1)
    · obtain ⟨n', hn', hgrow⟩ := @growSlots_spec n tokens.length hn (by omega)
      rw [if_pos hloop, hgrow, Option.bind_eq_bind, Option.bind_some]
      by_cases hlt : k < t.length
      · have hno : ¬ (s.drop (start + k)).take sep.length = sep := by
          intro heq
          refine h.1 k hlt ?_
          rw [hjoin, List.drop_drop]
          exact List.prefix_iff_eq_take.mpr heq.symm
        rw [if_neg hno, Nat.add_assoc]
        exact ih hn' h hjoin hlt (by omega) (by omega) hfew
      · -- at the joint
        obtain rfl : k = t.length := by omega
        rcases ts with _ | ⟨t', ts⟩
        · rw [List.intercalate_singleton] at hlen
          omega
        rw [intercalate_cons_of_ne (by simp)] at hjoin
        have hdrop : s.drop (start + t.length) = sep ++ sep.intercalate (t' :: ts) := by
          rw [← List.drop_drop, ← hjoin, List.drop_left]
        have htoken : (s.drop start).take (start + t.length - start) = t := by
          rw [Nat.add_sub_cancel_left, ← hjoin, List.take_left]
        have hnext : splitScan s sep fuel (start + t.length + sep.length + 0)
            (start + t.length + sep.length)
            (5 * 2 ^ n') (tokens ++ [t]) = some (tokens ++ [t] ++ t' :: ts) := by
          refine ih hn' h.2 ?_ (Nat.zero_le _) (by omega) (by omega) ?_
          · rw [← List.drop_drop, hdrop, List.drop_left]
          · rw [List.length_cons] at hfew
            rw [List.length_append, List.length_singleton]
            omega
        rw [if_pos (by rw [hdrop, List.take_left]), htoken]
        rwa [Nat.add_zero, List.append_assoc] at hnext
    · -- there is no joint after the last token
      rcases ts with _ | ⟨t', ts⟩
      · rw [List.intercalate_singleton] at hjoin
        rw [if_neg hloop, List.take_of_length_le (by simp), hjoin]
      · rw [intercalate_cons_of_ne (by simp)] at hlen
        simp only [List.length_append] at hlen
        omega

theorem sdssplitlen_joints (hsep : sep ≠ []) (hs : s ≠ []) (h : Joints sep (t :: ts))
    (hjoin : sep.intercalate (t :: ts) = s) (hfew : (t :: ts).length < maxTokens) :
    sdssplitlen s sep = some (t :: ts) := by
  have hpos := List.length_pos_iff.mpr hsep
  have hscan : splitScan s sep (s.length + 1) (0 + 0) 0 (5 * 2 ^ 0) [] = some ([] ++ t :: ts) :=
    splitScan_spec hsep (by decide) h hjoin (Nat.zero_le _) (Nat.zero_le _) (by omega)
      (by simpa using hfew)
  rw [sdssplitlen, if_neg (by omega), if_neg (by simpa using hs)]
  exact hscan

/-- **Splitting and joining are inverse**, but for the one empty token. -/
theorem split_join_inverse (hsep : sep ≠ []) :
    (∀ s, s ≠ [] → (∀ ts, Joints sep ts → sdsjoinsds ts sep = s → ts.length < maxTokens) →
      ∃ tokens, sdssplitlen s sep = some tokens ∧ tokens ≠ [] ∧ (∀ t ∈ tokens, ¬ sep <:+: t) ∧
        sdsjoinsds tokens sep = s) ∧
    ∀ tokens, tokens ≠ [] → tokens ≠ [[]] → tokens.length < maxTokens → Joints sep tokens →
      sdssplitlen (sdsjoinsds tokens sep) sep = some tokens := by
  simp only [sdsjoinsds_eq]
  constructor
  · intro s hs hfew
    obtain ⟨t, ts, hjoints, hjoin⟩ := exists_joints hsep s
    have hsplit := sdssplitlen_joints hsep hs hjoints hjoin (hfew _ hjoints hjoin)
    exact ⟨t :: ts, hsplit, by simp, hjoints.not_infix hsep, hjoin⟩
  · intro tokens hne hempty hfew hjoints
    obtain ⟨t, ts, rfl⟩ := List.exists_cons_of_ne_nil hne
    refine sdssplitlen_joints hsep (fun hnil => hempty ?_) hjoints rfl hfew
    rcases ts with _ | ⟨t', ts⟩
    · rw [← hnil, List.intercalate_singleton]
    · rw [intercalate_cons_of_ne (by simp)] at hnil
      simp [hsep] at hnil

theorem split_join_inverse_comma :
    (∃ tokens, sdssplitlen [97, 44, 98] [44] = some tokens ∧ tokens ≠ [] ∧
      (∀ t ∈ tokens, ¬ [44] <:+: t) ∧ sdsjoinsds tokens [44] = [97, 44, 98]) ∧
    sdssplitlen (sdsjoinsds [[97], [98]] [44]) [44] = some [[97], [98]] := by
  have hfew : ∀ ts, Joints [44] ts → sdsjoinsds ts [44] = [97, 44, 98] → ts.length < maxTokens := by
    intro ts _ hts
    rw [sdsjoinsds_eq] at hts
    refine (@length_le_intercalate [44] ts (by simp)).trans_lt ?_
    rw [hts]
    decide
  have h := @split_join_inverse [44] (by simp)
  refine ⟨h.1 _ (by simp) hfew, h.2 _ (by simp) (by simp) (by decide) ?_⟩
  simp [Joints, List.intercalate]

/-- The join of the one empty token has no tokens. -/
theorem empty_token_lost :
    Joints [44] [[]] ∧ sdssplitlen (sdsjoinsds [[]] [44]) [44] = some [] := by
  refine ⟨⟨?_, trivial⟩, rfl⟩
  simp

end Sds
