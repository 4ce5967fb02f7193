/-
What the result of `redis-cli --cluster check` and `--cluster fix` means.

* `getCoveredSlots_spec` — the slots that some node has, and their number;
* `whatever_fixSlotsCoverage` — after the repair of the coverage the slots with an owner are
  those that had one and those that were given one; if no command failed, the others are the
  slots of the cases that the user refused;
* `whatever_searchMultipleOwners` — the search for several owners ends well if and only if all
  it found were repaired, whatever was found before it;
* `check_truthful_iff` — so the runs of a check whose success can be relied on.
-/
import DecomposeRedis.ClusterManager
import DecomposeRedis.ClusterCreateSpec

namespace ClusterManager

open Dialogue Function
open ClusterCreate (managerSlots)

variable {c : Cluster} {cfg : Settings} {fuel slot n s : ℕ} {slots : Slots}

theorem mem_masters : n ∈ masters c ↔ n < c.size ∧ (c.node n).slave = false := by
  rw [masters, List.mem_filter, List.mem_range, Bool.not_eq_true']

/-! ### Coverage -/

/-- Some node has the slot. -/
def Covered (c : Cluster) (slots : Slots) (slot : ℕ) : Prop := ∃ n < c.size, slots n slot = true

theorem Slots.set_apply (slots : Slots) (n slot : ℕ) (b : Bool) (m s : ℕ) :
    slots.set n slot b m s = if m = n ∧ s = slot then b else slots m s := by
  rw [Slots.set, update_apply]
  by_cases hm : m = n
  · subst hm
    rw [if_pos rfl, update_apply]
    by_cases hs : s = slot
    · rw [if_pos hs, if_pos ⟨rfl, hs⟩]
    · rw [if_neg hs, if_neg fun h => hs h.2]
  · rw [if_neg hm, if_neg fun h => hm h.1]

theorem covered_set (hn : n < c.size) :
    Covered c (slots.set n slot true) s ↔ Covered c slots s ∨ s = slot := by
  constructor
  · rintro ⟨m, hm, hms⟩
    rw [Slots.set_apply] at hms
    split_ifs at hms with h
    · exact Or.inr h.2
    · exact Or.inl ⟨m, hm, hms⟩
  · rintro (⟨m, hm, hms⟩ | rfl)
    · refine ⟨m, hm, ?_⟩
      rw [Slots.set_apply]
      split_ifs
      · rfl
      · exact hms
    · refine ⟨n, hn, ?_⟩
      rw [Slots.set_apply, if_pos ⟨rfl, rfl⟩]

/-- The number of slots that are marked. -/
def CountsSlots (all : (ℕ → Bool) × ℕ) : Prop :=
  all.2 = (List.range managerSlots).countP fun s => all.1 s = true

theorem coverNode_spec (slots : ℕ → Bool) {all : (ℕ → Bool) × ℕ} (h : CountsSlots all) :
    CountsSlots (coverNode slots all) ∧
      ∀ s, (coverNode slots all).1 s = true ↔ all.1 s = true ∨
      (s < managerSlots ∧ slots s = true) := by
  -- the slots that were seen so far
  suffices hfold : ∀ k ≤ managerSlots, ∀ b,
      (List.range k).foldl (fun all i => if slots i && !all.1 i then
        (update all.1 i true, all.2 + 1) else all) all = b →
      CountsSlots b ∧ ∀ s, b.1 s = true ↔ all.1 s = true ∨ (s < k ∧ slots s = true) from
    hfold managerSlots le_rfl _ rfl
  intro k hk
  induction k with
  | zero =>
    rintro b rfl
    exact ⟨h, fun s => by simp⟩
  | succ k ih =>
    rintro _ rfl
    rw [List.range_succ, List.foldl_append, List.foldl_cons, List.foldl_nil]
    obtain ⟨hcount, hall⟩ := ih (by omega) _ rfl
    generalize (List.range k).foldl _ all = b at hcount hall ⊢
    simp only [Nat.lt_succ_iff_lt_or_eq]
    split_ifs with hi
    · rw [Bool.and_eq_true, Bool.not_eq_true'] at hi
      refine ⟨?_, fun s => ?_⟩
      · have hne : b.1 k ≠ true := by simp [hi.2]
        rw [CountsSlots, hcount]
        rw [ClusterCreate.countP_update List.nodup_range (List.mem_range.mpr hk) hne, if_pos rfl]
      · dsimp only
        rw [update_apply]
        split_ifs with hs
        · simp [hs, hi.1]
        · simp [hs, hall]
    · refine ⟨hcount, fun s => (hall s).trans ?_⟩
      by_cases hs : s = k
      · subst hs
        cases h1 : slots s <;> cases h2 : b.1 s <;> simp_all
      · simp [hs]

theorem getCoveredSlots_spec (c : Cluster) (slots : Slots) :
    (∀ s, (getCoveredSlots c slots).1 s = true ↔ s < managerSlots ∧ Covered c slots s) ∧
      ((getCoveredSlots c slots).2 = managerSlots ↔ ∀ s < managerSlots, Covered c slots s) := by
  have hfold : ∀ k,
      CountsSlots ((List.range k).foldl (fun all n => coverNode (slots n) all)
        (fun _ => false, 0)) ∧
        ∀ s, ((List.range k).foldl (fun all n => coverNode (slots n) all)
            (fun _ => false, 0)).1 s = true ↔
          s < managerSlots ∧ ∃ n < k, slots n s = true := by
    intro k
    induction k with
    | zero =>
      refine ⟨?_, fun s => by simp⟩
      rw [CountsSlots, List.range_zero, List.foldl_nil, List.countP_eq_zero.mpr fun s _ => by simp]
    | succ k ih =>
      obtain ⟨hcount, hall⟩ := ih
      rw [List.range_succ, List.foldl_append, List.foldl_cons, List.foldl_nil]
      obtain ⟨hcount', hall'⟩ := coverNode_spec (slots k) hcount
      refine ⟨hcount', fun s => ?_⟩
      rw [hall', hall, Nat.exists_lt_succ_right, and_or_left]
  obtain ⟨hcount, hall⟩ := hfold c.size
  refine ⟨hall, ?_⟩
  have hcount : (getCoveredSlots c slots).2 =
      (List.range managerSlots).countP fun s => (getCoveredSlots c slots).1 s = true := hcount
  have hlength : (List.range managerSlots).length = managerSlots := List.length_range
  rw [hcount]
  nth_rewrite 2 [← hlength]
  rw [List.countP_eq_length]
  refine forall_congr' fun s => ?_
  rw [List.mem_range, decide_eq_true_eq]
  exact imp_congr_right fun hs => (hall s).trans (and_iff_right hs)

theorem mem_uncovered : s ∈ uncovered c slots ↔ s < managerSlots ∧ ¬ Covered c slots s := by
  rw [uncovered, List.mem_filter, List.mem_range, Bool.not_eq_true', Bool.eq_false_iff, Ne,
    (getCoveredSlots_spec c slots).1, not_and]
  exact and_congr_right fun hs => ⟨fun h => h hs, fun h _ => h⟩

theorem uncovered_eq_nil : uncovered c slots = [] ↔ (getCoveredSlots c slots).2 = managerSlots := by
  rw [(getCoveredSlots_spec c slots).2, List.eq_nil_iff_forall_not_mem]
  refine forall_congr' fun s => ?_
  rw [mem_uncovered, not_and, not_not]

/-! ### The repair of the coverage -/

theorem whatever_mostKeys (nodes : List ℕ) (slot : ℕ) :
    Whatever (fun r => ∀ n, r = some n → n ∈ nodes) (getNodeWithMostKeysInSlot c nodes slot) := by
  refine Whatever.bind (?_ : Whatever (fun r => ∀ b, r.1 = some b → b.1 ∈ nodes) _)
    fun r hr n hn => ?_
  · refine whatever_each (fun _ best => ∀ b, best = some b → b.1 ∈ nodes)
      (by rintro _ ⟨⟩) ?_ fun _ h => h
    intro done n rest hl best hbest
    have hn : n ∈ nodes := by rw [hl]; simp
    split_ifs
    · exact hbest
    · refine (whatever_any _).bind fun reply _ => ?_
      rcases reply with _ | _ | count
      · rintro _ ⟨⟩
      · rintro _ ⟨⟩
      · rcases best with _ | ⟨node, numkeys⟩
        · rintro b ⟨⟩
          exact hn
        · rintro b ⟨⟩
          split_ifs
          · exact hn
          · exact hbest _ rfl
  · obtain ⟨b, hb, rfl⟩ := Option.map_eq_some_iff.mp hn
    exact hr b hb

theorem whatever_iterate {α : Type} (l : List α) : Whatever (fun r => r.Perm l) (iterate l) := by
  refine (whatever_any (question (.order l.length))).bind fun order _ => ?_
  have hperm := Equiv.Perm.ofFn_comp_perm order l.get
  rwa [List.ofFn_get] at hperm

theorem whatever_slotNodes (slot : ℕ) :
    Whatever (fun r => ∀ n ∈ r.1, n < c.size) (slotNodes c slot) := by
  refine whatever_each (fun _ nodes => ∀ n ∈ nodes, n < c.size) (fun _ h => nomatch h) ?_
    fun _ h => h
  intro done n rest hl nodes hnodes
  refine whatever_ite (fun _ => hnodes) fun _ => (whatever_any _).bind fun reply _ => ?_
  rcases reply with _ | _ | keys
  · exact hnodes
  · exact hnodes
  · have hn : n < c.size := List.mem_range.mp (by rw [hl]; simp)
    dsimp only
    split_ifs
    · exact List.forall_mem_append.mpr ⟨hnodes, List.forall_mem_singleton.mpr hn⟩
    · exact hnodes

-- a loop over all slots has a name of its own in such statements, so that it is never unfolded
theorem whatever_uncoveredSlots {allSlots : ℕ → Bool}
    {search : Manager (List (ℕ × List ℕ) × Bool)} (hsearch : search = uncoveredSlots c allSlots) :
    Whatever (fun r => r.2 = true →
      r.1.map Prod.fst = (List.range managerSlots).filter (fun s => !allSlots s) ∧
        ∀ e ∈ r.1, ∀ n ∈ e.2, n < c.size) search := by
  rw [hsearch, uncoveredSlots]
  generalize List.range managerSlots = l
  refine whatever_each (fun done entries => entries.map Prod.fst
    = done.filter (fun s => !allSlots s) ∧
    ∀ e ∈ entries, ∀ n ∈ e.2, n < c.size) ⟨rfl, fun _ h => nomatch h⟩ ?_ fun _ h _ => h
  rintro done s rest - entries ⟨hslots, hnodes⟩
  refine whatever_ite (fun hs => ⟨?_, hnodes⟩) fun hs =>
    (whatever_slotNodes s).bind fun nodes hsize => whatever_ite (fun _ => ⟨?_, ?_⟩) fun _ h =>
      nomatch h
  · rw [List.filter_append, List.filter_cons_of_neg (by rw [hs]; simp), List.filter_nil,
      List.append_nil]
    exact hslots
  · rw [List.map_append, List.filter_append, List.filter_cons_of_pos (by simpa using hs),
      List.filter_nil, hslots]
    rfl
  · exact List.forall_mem_append.mpr ⟨hnodes, List.forall_mem_singleton.mpr hsize⟩

theorem whatever_nodeMasterRandom : Whatever (fun n => n < c.size) (nodeMasterRandom c) := by
  refine (whatever_any (question .rand)).bind fun idx _ => ?_
  split
  · trivial
  · next n hn => exact (mem_masters.mp (List.mem_of_getElem? hn)).1

/-- The slots with an owner are those that had one and those that were given one. -/
def Coverage.From (c : Cluster) (slots : Slots) (t : Coverage) : Prop :=
  ∀ s, Covered c t.slots s ↔ Covered c slots s ∨ s ∈ t.assigned

variable {t : Coverage} {l : List (ℕ × List ℕ)} {e : ℕ × List ℕ}

theorem Coverage.from_nil (fixed : ℤ) (refused : List ℕ) :
    Coverage.From c slots ⟨fixed, slots, [], refused⟩ := fun s => by simp

theorem Coverage.From.assign (h : t.From c slots) (hn : n < c.size) :
    (t.assign n slot).From c slots := by
  intro s
  rw [Coverage.assign, covered_set hn, h s, List.mem_append, List.mem_singleton, or_assoc]

/-- How a case of the repair that the user agreed to ends: all its slots are assigned, or the
repair is given up. -/
structure Ends (c : Cluster) (slots : Slots) (t : Coverage) (l : List (ℕ × List ℕ))
    (r : Coverage × Bool) : Prop where
  covers : r.1.From c slots
  refused : r.1.refused = t.refused
  all : r.2 = true → r.1.assigned = t.assigned ++ l.map Prod.fst
  failed : r.2 = false → r.1.fixed = -1

theorem whatever_coverSlot (h : t.From c slots) (hn : n < c.size) (doClear : Bool) :
    Whatever (Ends c slots t [e]) (coverSlot c t n e.1 doClear) :=
  whatever_guard (fun _ => ⟨h, rfl, fun h => (nomatch h), fun _ => rfl⟩)
    fun _ => ⟨h.assign hn, rfl, fun _ => rfl, fun h => nomatch h⟩

/-- A case ends as its steps do. -/
theorem whatever_steps {body : Coverage → ℕ × List ℕ → Manager (Coverage × Bool)}
    (h : t.From c slots)
    (hbody : ∀ e ∈ l, ∀ t : Coverage, t.From c slots → Whatever (Ends c slots t [e]) (body t e)) :
    Whatever (Ends c slots t l) (each body t l) := by
  refine whatever_each (fun done t' => t'.From c slots ∧ t'.refused = t.refused ∧
      t'.assigned = t.assigned ++ done.map Prod.fst) ⟨h, rfl, (List.append_nil _).symm⟩ ?_
    fun t' h => ⟨h.1, h.2.1, fun _ => h.2.2, fun h => nomatch h⟩
  rintro done e rest hl t' ⟨hfrom, hrefused, hassigned⟩
  refine (hbody e (by rw [hl]; simp) t' hfrom).mono fun r hr => ?_
  have hrefused' := hr.refused.trans hrefused
  by_cases hgo : r.2 = true
  · rw [if_pos hgo]
    refine ⟨hr.covers, hrefused', ?_⟩
    rw [hr.all hgo, hassigned, List.append_assoc, List.map_append]
  · rw [if_neg hgo]
    exact ⟨hr.covers, hrefused', fun h => (nomatch h), fun _ => hr.failed (by simpa using hgo)⟩

theorem whatever_coverEmpty (h : t.From c slots) :
    Whatever (Ends c slots t l) (coverEmpty c t l) :=
  whatever_steps h fun _ _ _ h => whatever_nodeMasterRandom.bind fun _ hn =>
    whatever_coverSlot h hn false

variable (hnodes : ∀ e ∈ l, ∀ n ∈ e.2, n < c.size)
include hnodes

theorem whatever_coverSingle (h : t.From c slots) :
    Whatever (Ends c slots t l) (coverSingle c t l) := by
  refine whatever_steps h fun e he t h => ?_
  split
  · trivial
  · next n hn => exact whatever_coverSlot h (hnodes e he n (List.mem_of_head? hn)) false

theorem whatever_coverMultiple (h : t.From c slots) :
    Whatever (Ends c slots t l) (coverMultiple c cfg fuel t l) := by
  refine whatever_steps h fun e he t h => ?_
  refine (whatever_mostKeys e.2 e.1).bind fun best hbest => ?_
  have hgiven : Ends c slots t [e] ({ t with fixed := -1 }, false) :=
    ⟨h, rfl, fun h => (nomatch h), fun _ => rfl⟩
  rcases best with _ | target
  · exact hgiven
  · have hfrom : (t.assign target e.1).From c slots :=
      h.assign (hnodes e he target (hbest target rfl))
    refine whatever_guard (fun _ => hgiven) fun _ => whatever_guard (fun _ => ?_) fun _ => ?_
    · exact ⟨hfrom, rfl, fun _ => rfl, fun h => nomatch h⟩
    -- the keys could not be moved, but the slot has its owner
    · exact ⟨hfrom, rfl, fun h => (nomatch h), fun _ => rfl⟩

omit hnodes

theorem whatever_confirmCase {msg : String}
    {f : Coverage → List (ℕ × List ℕ) → Manager (Coverage × Bool)} (h : t.From c slots)
    (hf : Whatever (Ends c slots t l) (f t l)) :
    Whatever (fun r => r.1.From c slots ∧ (r.2 = false → r.1.fixed = -1) ∧ (r.2 = true →
      (r.1.assigned ++ r.1.refused).Perm (t.assigned ++ t.refused ++ l.map Prod.fst)))
      (confirmCase msg t l f) := by
  refine whatever_ite (fun hl => (whatever_any _).bind fun yes _ => ?_) fun hl => ?_
  · refine whatever_ite (fun _ => hf.mono fun r hr => ⟨hr.covers, hr.failed, fun hgo => ?_⟩)
      fun _ => ⟨h, fun h => (nomatch h), fun _ => ?_⟩
    · rw [hr.all hgo, hr.refused, List.append_assoc, List.append_assoc]
      exact List.perm_append_comm.append_left _
    · rw [List.append_assoc]
  · rw [List.length_eq_zero_iff.mp (Nat.eq_zero_of_not_pos hl)]
    exact ⟨h, fun h => (nomatch h), fun _ => by rw [List.map_nil, List.append_nil]⟩

/-- The three cases have each entry once. -/
theorem cases_perm (l : List (ℕ × List ℕ)) :
    (l.filter (fun e => e.2.length = 0) ++ l.filter (fun e => e.2.length = 1) ++
      l.filter fun e => 1 < e.2.length).Perm l := by
  have hrest := List.filter_append_perm (fun e => decide (e.2.length = 1))
    (l.filter fun e => !decide (e.2.length = 0))
  rw [List.filter_filter, List.filter_filter] at hrest
  have hone : l.filter (fun e => decide (e.2.length = 1) && !decide (e.2.length = 0)) =
      l.filter fun e => e.2.length = 1 := List.filter_congr fun e _ => by
    by_cases h : e.2.length = 1 <;> simp [h]
  have hmore : l.filter (fun e => !decide (e.2.length = 1) && !decide (e.2.length = 0)) =
      l.filter fun e => 1 < e.2.length := List.filter_congr fun e _ => by
    rw [Bool.eq_iff_iff, Bool.and_eq_true, Bool.not_eq_true', Bool.not_eq_true',
      decide_eq_false_iff_not, decide_eq_false_iff_not, decide_eq_true_eq]
    omega
  rw [hone, hmore] at hrest
  rw [List.append_assoc]
  exact (hrest.append_left _).trans (List.filter_append_perm (fun e => decide (e.2.length = 0)) l)

/-- If no command failed, a slot that was uncovered is assigned or was refused. -/
theorem whatever_fixSlotsCoverage {p : Manager Coverage} {allSlots : ℕ → Bool}
    (hp : p = fixSlotsCoverage c cfg fuel allSlots slots) :
    Whatever (fun t => t.From c slots ∧ (0 ≤ t.fixed →
      ((List.range managerSlots).filter fun s => !allSlots s).Perm
        (t.assigned ++ t.refused))) p := by
  have hfailed : ∀ (t : Coverage) (P : Prop), t.From c slots → t.fixed = -1 →
      t.From c slots ∧ (0 ≤ t.fixed → P) :=
    fun t P ht h => ⟨ht, fun hle => absurd hle (by rw [h]; decide)⟩
  rw [hp, fixSlotsCoverage]
  generalize hsearch : uncoveredSlots c allSlots = search
  refine (whatever_uncoveredSlots hsearch.symm).bind fun found hfound => ?_
  refine whatever_ite (fun _ => hfailed _ _ (Coverage.from_nil (-1) []) rfl) fun hgo => ?_
  obtain ⟨hslots, hsize⟩ := hfound (by simpa using hgo)
  refine (whatever_iterate found.1).bind fun entries hentries => ?_
  have hnodes : ∀ (p : ℕ × List ℕ → Bool), ∀ e ∈ entries.filter p, ∀ n ∈ e.2, n < c.size :=
    fun p e he => hsize e (hentries.mem_iff.mp (List.mem_of_mem_filter he))
  have hstart : Coverage.From c slots ⟨0, slots, [], []⟩ := Coverage.from_nil 0 []
  refine (whatever_confirmCase hstart (whatever_coverEmpty hstart)).bind fun r hr => ?_
  refine whatever_ite (fun h => hfailed _ _ hr.1 (hr.2.1 (by simpa using h))) fun h => ?_
  have hnone := hr.2.2 (by simpa using h)
  refine (whatever_confirmCase hr.1 (whatever_coverSingle (hnodes _) hr.1)).bind fun r hr => ?_
  refine whatever_ite (fun h => hfailed _ _ hr.1 (hr.2.1 (by simpa using h))) fun h => ?_
  have hsingle := hr.2.2 (by simpa using h)
  refine (whatever_confirmCase hr.1 (whatever_coverMultiple (hnodes _) hr.1)).bind fun r hr => ?_
  cases hall : r.2 with
  | false => exact hfailed _ _ hr.1 (hr.2.1 hall)
  | true =>
    refine ⟨hr.1, fun _ => ?_⟩
    have hmulti := hr.2.2 hall
    rw [← hslots]
    refine (hentries.symm.map Prod.fst).trans (((cases_perm entries).symm.map Prod.fst).trans ?_)
    rw [List.map_append, List.map_append]
    exact (hmulti.trans ((hsingle.trans (hnone.append_right _)).append_right _)).symm

/-! ### The search for several owners -/

theorem whatever_searchMultipleOwners {search : Manager (Bool × List (ℕ × Bool))} {result : Bool}
    (hsearch : search = searchMultipleOwners c cfg fuel result slots) :
    Whatever (fun r => (r.2 = [] → r.1 = result) ∧
      (r.2 ≠ [] → (r.1 = true ↔ ∀ x ∈ r.2, x.2 = true)) ∧ (cfg.fix = false → r.1 = true → r.2 = []))
      search := by
  rw [hsearch, searchMultipleOwners]
  generalize List.range managerSlots = l
  refine Whatever.bind (?_ : Whatever (fun r : (Bool × List (ℕ × Bool)) × Bool =>
    (r.1.2 = [] → r.1.1 = result) ∧ (r.1.2 ≠ [] → (r.1.1 = true ↔ ∀ x ∈ r.1.2, x.2 = true)) ∧
      (cfg.fix = false → r.1.1 = true → r.1.2 = [])) _) fun r hr => hr
  refine whatever_each (fun _ (t : Bool × List (ℕ × Bool)) => ((t.2 = [] → t.1 = result) ∧
      (t.2 ≠ [] → (t.1 = true ↔ ∀ x ∈ t.2, x.2 = true)) ∧
        (cfg.fix = false → t.1 = true → t.2 = [])) ∧
      (cfg.fix = true → ∀ x ∈ t.2, x.2 = true))
    ⟨⟨fun _ => rfl, fun h => absurd rfl h, fun _ _ => rfl⟩, fun _ _ h => nomatch h⟩ ?_ fun _ h =>
      h.1
  rintro done slot rest - t ⟨hfound, hfix⟩
  have hne : ∀ (x : ℕ × Bool) (P : Prop), t.2 ++ [x] = [] → P := fun x P h =>
    absurd h (List.append_ne_nil_of_right_ne_nil _ (List.cons_ne_nil _ _))
  -- a slot that is not repaired
  have hleft : ¬ ∀ x ∈ t.2 ++ [(slot, false)], x.2 = true := fun h =>
    Bool.false_ne_true (h (slot, false) (List.mem_append_right _ List.mem_cons_self))
  have hbad : (t.2 ++ [(slot, false)] ≠ [] → (false = true ↔ ∀ x ∈ t.2 ++ [(slot, false)],
      x.2 = true)) ∧ (cfg.fix = false → false = true → t.2 ++ [(slot, false)] = []) :=
    ⟨fun _ => ⟨fun h => (nomatch h), fun h => absurd h hleft⟩, fun _ h => nomatch h⟩
  refine (whatever_any _).bind fun owners _ => whatever_ite (fun _ => ?_) fun _ => ⟨hfound, hfix⟩
  refine whatever_ite (fun hf => (whatever_any _).bind fun success _ => ?_) fun hf => ?_
  · cases success with
    | false => exact ⟨hne _ _, hbad⟩
    | true =>
      have hall : ∀ x ∈ t.2 ++ [(slot, true)], x.2 = true :=
        List.forall_mem_append.mpr ⟨hfix hf, List.forall_mem_singleton.mpr rfl⟩
      exact ⟨⟨hne _ _, fun _ => ⟨fun _ => hall, fun _ => rfl⟩,
        fun h => absurd hf (by rw [h]; simp)⟩, fun _ => hall⟩
  · exact ⟨⟨hne _ _, hbad⟩, fun h => absurd h hf⟩

/-! ### The check -/

/-- All nodes have one signature; a node alone is not asked. -/
def Agreed (c : Cluster) (signatures : List (Option Bytes)) : Prop :=
  2 ≤ c.size → ∃ signature, signatures = List.replicate c.size (some signature)

theorem whatever_isConfigConsistent :
    Whatever (fun r => r.1 = true → Agreed c r.2) (isConfigConsistent c) := by
  refine whatever_ite (fun hsize _ h => absurd h (by omega)) fun hsize => ?_
  refine Whatever.bind (?_ : Whatever (fun r : ((Option Bytes × Bool) × List
    (Option Bytes)) × Bool =>
    r.1.1.2 = true → Agreed c r.1.2) _) fun r hr => hr
  refine whatever_each (fun done (t : (Option Bytes × Bool) × List (Option Bytes)) =>
    (t.1.1 = none → done = [] ∧ t.2 = []) ∧
    ∀ first, t.1.1 = some first → t.2 = List.replicate done.length (some first))
      ⟨fun _ => ⟨rfl, rfl⟩, fun _ h => nomatch h⟩ ?_ ?_
  · rintro done n rest - ⟨⟨first, consistent⟩, signatures⟩ ⟨hnone, hsome⟩
    refine (whatever_any _).bind fun cfg _ => ?_
    have hnext : ∀ s, signatures = List.replicate done.length (some s) →
        signatures ++ [some s] = List.replicate (done ++ [n]).length (some s) := by
      intro s hs
      rw [hs, List.length_append, List.length_singleton, List.replicate_succ']
    rcases cfg with _ | s
    · exact fun h => nomatch h
    · rcases first with _ | first
      · obtain ⟨hdone, hsignatures⟩ := hnone rfl
        refine ⟨fun h => (nomatch h), ?_⟩
        rintro first ⟨⟩
        exact hnext s (by rw [hdone]; exact hsignatures)
      · by_cases heq : first = s
        · dsimp only
          rw [whatever_pure, if_pos (by simpa using heq)]
          refine ⟨fun h => (nomatch h), ?_⟩
          rintro first' ⟨⟩
          rw [← heq]
          exact hnext first (hsome first rfl)
        · dsimp only
          rw [whatever_pure, if_neg (by simpa using heq)]
          intro h
          exact absurd (of_decide_eq_true h) heq
  · rintro ⟨⟨first, consistent⟩, signatures⟩ ⟨hnone, hsome⟩ - -
    rcases first with _ | first
    · obtain ⟨hnil, -⟩ := hnone rfl
      have hlength := congrArg List.length hnil
      rw [List.length_range, List.length_nil] at hlength
      exact absurd hlength (by omega)
    · have hlast := hsome first rfl
      rw [List.length_range] at hlast
      exact ⟨first, hlast⟩

theorem whatever_fixOpenSlots {entries : List ℕ} (hnodup : entries.Nodup) (slots : Slots) :
    Whatever (fun r => (r.2 = true ↔ ∀ x ∈ r.1.1, x.2 = true) ∧
      (r.2 = true ↔ ∀ s ∈ entries, (s, true) ∈ r.1.1)) (fixOpenSlots c cfg fuel entries slots) := by
  refine whatever_each (fun done (t : List (ℕ × Bool) × Slots) => t.1 = done.map fun s => (s, true))
    rfl ?_ fun t h => ?_
  · intro done slot rest hl t h
    refine (whatever_any _).bind fun r _ => ?_
    rw [whatever_pure]
    by_cases hgo : r.1 = true
    · rw [if_pos hgo, h, hgo, List.map_append]
      rfl
    · rw [if_neg hgo, Bool.eq_false_iff.mpr hgo, h]
      refine ⟨⟨fun h => (nomatch h), fun h => ?_⟩, fun h => (nomatch h), fun h => ?_⟩
      · exact h (slot, false) (List.mem_append_right _ List.mem_cons_self)
      -- a slot is repaired once
      · have hslot : slot ∉ done := fun hmem =>
          (List.nodup_append.mp (hl ▸ hnodup)).2.2 slot hmem slot List.mem_cons_self rfl
        have hmem := h slot (by rw [hl]; simp)
        simp [hslot] at hmem
  · rw [h]
    exact ⟨by simp, by simp⟩

/-- The open slots as they are repaired. -/
theorem whatever_checkOpened (consistent : Bool) :
    Whatever (fun r => (openSlots c = [] → r.1 = (consistent, [])) ∧
      (openSlots c ≠ [] → cfg.fix = false → r.1.1 = false) ∧
      (openSlots c ≠ [] → cfg.fix = true → (r.1.1 = true ↔ ∀ x ∈ r.1.2, x.2 = true) ∧
        (r.1.1 = true ↔ ∀ s ∈ openSlots c, (s, true) ∈ r.1.2)))
      (checkOpened c cfg fuel consistent) := by
  refine whatever_ite (fun hnil => ?_) fun hne => whatever_ite (fun hfix => ?_) fun hfix => ?_
  · have hnil := List.eq_nil_of_length_eq_zero hnil
    exact ⟨fun _ => rfl, fun h => absurd hnil h, fun h => absurd hnil h⟩
  · refine (whatever_iterate (openSlots c)).bind fun entries hentries => ?_
    have hnodup := hentries.nodup_iff.mpr (List.nodup_dedup _)
    refine (whatever_fixOpenSlots hnodup c.slots).bind fun r hr =>
      ⟨fun h => ?_, fun _ h => ?_, fun _ _ => ?_⟩
    · exact absurd (congrArg List.length h) hne
    · exact absurd hfix (by rw [h]; simp)
    · refine ⟨hr.1, hr.2.trans (forall_congr' fun s => ?_)⟩
      rw [hentries.mem_iff]
  · refine ⟨fun h => ?_, fun _ _ => rfl, fun _ h => absurd h hfix⟩
    exact absurd (congrArg List.length h) hne

/-- The coverage as it is repaired. -/
theorem whatever_checkCoverage {p : Manager (Bool × Coverage)} {result : Bool}
    (hp : p = checkCoverage c cfg fuel result slots) :
    Whatever (fun r => r.2.From c slots ∧
      (r.1 = true ↔ 0 < r.2.fixed ∨ uncovered c slots = [] ∧ result = true) ∧
      (cfg.fix = false → r.2.fixed = 0) ∧
      (cfg.fix = true → 0 ≤ r.2.fixed →
        (uncovered c slots).Perm (r.2.assigned ++ r.2.refused))) p := by
  rw [hp, checkCoverage]
  refine whatever_ite (fun hfull => ?_) fun hpart => whatever_ite (fun hfix => ?_) fun hfix => ?_
  · have hnil := uncovered_eq_nil.mpr hfull
    refine ⟨Coverage.from_nil 0 [], ?_, fun _ => rfl, fun _ _ => by rw [hnil]; rfl⟩
    simp [hnil]
  · generalize hp : fixSlotsCoverage c cfg fuel (getCoveredSlots c slots).1 slots = p
    refine (whatever_fixSlotsCoverage hp.symm).bind fun t ht => ?_
    refine ⟨ht.1, ?_, fun h => absurd hfix (by rw [h]; simp), fun _ => ht.2⟩
    have hne : uncovered c slots ≠ [] := fun h => hpart (uncovered_eq_nil.mp h)
    simp [hne]
  · have hne : uncovered c slots ≠ [] := fun h => hpart (uncovered_eq_nil.mp h)
    refine ⟨Coverage.from_nil 0 [], ?_, fun _ => rfl, fun h => absurd h hfix⟩
    simp [hne]

/-- What the result of a check promises. -/
structure Report.Truthful (c : Cluster) (cfg : Settings) (r : Report) : Prop where
  covered : ∀ s < managerSlots, Covered c r.coverage.slots s
  opened : ∀ s ∈ r.openSlots, cfg.fix = true ∧ (s, true) ∈ r.repairs
  multiple : cfg.checkOwners = true → ∀ x ∈ r.multiple, x.2 = true
  agreed : cfg.fix = false → Agreed c r.signatures

/-- The result is set again after the open slots were repaired: some slots with several owners
were found and all repaired, or none were found and the repair of the coverage counts a slot. -/
def Report.SetAgain (r : Report) : Prop :=
  (∀ x ∈ r.multiple, x.2 = true) ∧ (r.multiple ≠ [] ∨ 0 < r.coverage.fixed)

/-- What failed before the result is set again is forgotten: the repair of an open slot, and a
slot that the repair of the coverage did not come to or that the user refused. -/
def Report.Reliable (cfg : Settings) (r : Report) : Prop :=
  cfg.fix = true → r.SetAgain →
    (∀ x ∈ r.repairs, x.2 = true) ∧ ∀ s ∈ r.uncovered, s ∈ r.coverage.assigned

/-- How the steps of a check depend on each other: `first` is the result after the open slots
were repaired, and `second` the one after the coverage was. -/
structure Report.Steps (c : Cluster) (cfg : Settings) (first second : Bool) (r : Report) :
    Prop where
  agreed : r.consistent = true → Agreed c r.signatures
  noneOpen : r.openSlots = [] → (first, r.repairs) = (r.consistent, [])
  unrepaired : r.openSlots ≠ [] → cfg.fix = false → first = false
  repaired : r.openSlots ≠ [] → cfg.fix = true → (first = true ↔ ∀ x ∈ r.repairs, x.2 = true) ∧
    (first = true ↔ ∀ s ∈ r.openSlots, (s, true) ∈ r.repairs)
  covered_iff : (∀ s < managerSlots, Covered c r.coverage.slots s) ↔
    ∀ s ∈ r.uncovered, s ∈ r.coverage.assigned
  second_iff : second = true ↔ 0 < r.coverage.fixed ∨ r.uncovered = [] ∧ first = true
  uncounted : cfg.fix = false → r.coverage.fixed = 0
  noOwners : r.multiple = [] → r.result = second
  owners : r.multiple ≠ [] → (r.result = true ↔ ∀ x ∈ r.multiple, x.2 = true)
  unsearched : cfg.fix = false → r.result = true → r.multiple = []

section Steps

variable {first second : Bool} {r : Report}

theorem Report.Steps.multiple (h : r.Steps c cfg first second) (hresult : r.result = true) :
    ∀ x ∈ r.multiple, x.2 = true := by
  by_cases hempty : r.multiple = []
  · rw [hempty]
    exact fun x hx => nomatch hx
  · exact (h.owners hempty).mp hresult

/-- Without being set again the result is that of the open slots. -/
theorem Report.Steps.first_of_result (h : r.Steps c cfg first second) (hresult : r.result = true)
    (hempty : r.multiple = []) (hfixed : ¬ 0 < r.coverage.fixed) :
    r.uncovered = [] ∧ first = true :=
  (h.second_iff.mp ((h.noOwners hempty).symm.trans hresult)).resolve_left hfixed

theorem Report.Steps.reliable (h : r.Steps c cfg first second)
    (htruthful : r.result = true → r.Truthful c cfg) : r.Reliable cfg := by
  intro hfix hagain
  -- the result is true, and so is what it promises
  have hresult : r.result = true := by
    by_cases hempty : r.multiple = []
    · rw [h.noOwners hempty, h.second_iff]
      exact Or.inl (hagain.2.resolve_left fun hne => hne hempty)
    · exact (h.owners hempty).mpr hagain.1
  have htrue := htruthful hresult
  refine ⟨fun x hx => ?_, h.covered_iff.mp htrue.covered⟩
  by_cases hopen : r.openSlots = []
  · rw [show r.repairs = [] from congrArg Prod.snd (h.noneOpen hopen)] at hx
    exact nomatch hx
  · obtain ⟨hrepairs, hslots⟩ := h.repaired hopen hfix
    exact hrepairs.mp (hslots.mpr fun s hs => (htrue.opened s hs).2) x hx

theorem Report.Steps.truthful (h : r.Steps c cfg first second) (hreliable : r.Reliable cfg)
    (hresult : r.result = true) : r.Truthful c cfg := by
  cases hfix : cfg.fix with
  | false =>
    obtain ⟨hunc, hfirst⟩ := h.first_of_result hresult (h.unsearched hfix hresult)
      (by rw [h.uncounted hfix]; decide)
    have hempty : r.openSlots = [] := by
      by_contra hne
      exact Bool.false_ne_true ((h.unrepaired hne hfix).symm.trans hfirst)
    refine ⟨h.covered_iff.mpr (by rw [hunc]; exact fun s hs => nomatch hs), fun s hs => ?_,
      fun _ => h.multiple hresult, fun _ => h.agreed ?_⟩
    · rw [hempty] at hs
      exact nomatch hs
    · exact (congrArg Prod.fst (h.noneOpen hempty)).symm.trans hfirst
  | true =>
    have hdone : (r.openSlots ≠ [] → first = true) ∧
        ∀ s ∈ r.uncovered, s ∈ r.coverage.assigned := by
      by_cases hagain : r.multiple ≠ [] ∨ 0 < r.coverage.fixed
      · obtain ⟨hrepairs, hassigned⟩ := hreliable hfix ⟨h.multiple hresult, hagain⟩
        exact ⟨fun hne => (h.repaired hne hfix).1.mpr hrepairs, hassigned⟩
      · rw [not_or, not_not] at hagain
        obtain ⟨hunc, hfirst⟩ := h.first_of_result hresult hagain.1 hagain.2
        exact ⟨fun _ => hfirst, by rw [hunc]; exact fun s hs => nomatch hs⟩
    refine ⟨h.covered_iff.mpr hdone.2, fun s hs => ⟨hfix, ?_⟩, fun _ => h.multiple hresult,
      fun hno => absurd (hfix.symm.trans hno) (by simp)⟩
    have hne : r.openSlots ≠ [] := List.ne_nil_of_mem hs
    exact (h.repaired hne hfix).2.mp (hdone.1 hne) s hs

end Steps

theorem whatever_checkOwners (result : Bool) (slots : Slots) :
    Whatever (fun r => (r.2 = [] → r.1 = result) ∧
      (r.2 ≠ [] → (r.1 = true ↔ ∀ x ∈ r.2, x.2 = true)) ∧ (cfg.fix = false → r.1 = true → r.2 = []))
      (checkOwners c cfg fuel result slots) := by
  rw [checkOwners]
  generalize hp : searchMultipleOwners c cfg fuel result slots = search
  exact whatever_ite (fun _ => whatever_searchMultipleOwners hp.symm)
    fun _ => ⟨fun _ => rfl, fun h => absurd rfl h, fun _ _ => rfl⟩

/-- All slots are covered if those that were not are assigned. -/
theorem Coverage.From.covered_iff (h : t.From c slots) :
    (∀ s < managerSlots, Covered c t.slots s) ↔ ∀ s ∈ uncovered c slots, s ∈ t.assigned := by
  refine forall_congr' fun s => ?_
  rw [h s, mem_uncovered, and_imp]
  exact imp_congr_right fun _ => or_iff_not_imp_left

theorem whatever_checkCluster :
    Whatever (fun r => ((r.result = true → r.Truthful c cfg) ↔ r.Reliable cfg) ∧
      (cfg.fix = true → 0 ≤ r.coverage.fixed →
        r.uncovered.Perm (r.coverage.assigned ++ r.coverage.refused)))
          (checkCluster c cfg fuel) := by
  refine whatever_ite (fun hsize => ?_) fun hsize => ?_
  · refine ⟨⟨fun _ _ h => absurd h.2 (by simp), fun _ h => nomatch h⟩, fun _ _ => List.Perm.refl []⟩
  refine whatever_isConfigConsistent.bind fun consistent hconsistent => ?_
  refine (whatever_checkOpened consistent.1).bind fun opened hopened => ?_
  obtain ⟨hnone, hnofix, hopen⟩ := hopened
  generalize hp : checkCoverage c cfg fuel _ _ = p
  refine (whatever_checkCoverage hp.symm).bind fun covered hcovered => ?_
  obtain ⟨hfrom, hset, hfixed, hperm⟩ := hcovered
  refine (whatever_checkOwners covered.1 covered.2.slots).bind fun owners howners => ?_
  obtain ⟨hnil, hall, hno⟩ := howners
  rw [whatever_pure]
  have hcover := hfrom.covered_iff
  -- of the slots that were uncovered no more is used
  generalize uncovered c opened.2 = missing at hset hperm hcover ⊢
  have hsteps : Report.Steps c cfg opened.1.1 covered.1 ⟨owners.1, consistent.1, consistent.2,
      openSlots c, opened.1.2, missing, covered.2, owners.2⟩ :=
    ⟨hconsistent, hnone, hnofix, hopen, hcover, hset, hfixed, hnil, hall, hno⟩
  exact ⟨⟨hsteps.reliable, hsteps.truthful⟩, hperm⟩

/-- One master that has all slots but the first two. -/
def sampleCluster : Cluster :=
  ⟨1, fun _ => ⟨[97], [], 7000, false, none, fun s => 2 ≤ s, [], []⟩⟩

/-- It has a key of slot 1 and none of slot 0; the first question of the user has number 3. -/
def sampleAnswer (yes : Bool) (k : ℕ) : (q : Request) → q.Answer
  | .command _ (.getKeysInSlot slot _) => some (.ok (if slot = 1 then [[107]] else []))
  | .command _ (.countKeysInSlot _) => some (.ok 0)
  | .command _ (.setSlot _ _) => some (.ok ())
  | .command _ (.addSlots _) => some (.ok ())
  | .command _ (.delSlots _) => some (.ok ())
  | .command _ .bumpEpoch => some (.ok ())
  | .command _ .multi => some (.ok ())
  | .command _ .exec => some (.ok (some [some (.ok ()), some (.ok ()), some (.ok ())]))
  | .command _ .slots => some (.ok (some []))
  | .command _ (.migrate _ _ _) => some (.ok ())
  | .command _ (.digestValue _) => some (.ok [])
  | .signature _ => some []
  | .confirmWithYes _ => yes || k ≠ 3
  | .rand => 0
  | .memory _ => fun _ => 0
  | .order n => Equiv.refl (Fin n)

/-- What the check reports if the user answers so. -/
def sampleReport (yes : Bool) : Report :=
  let slots := if yes then sampleCluster.slots.set 0 0 true else sampleCluster.slots
  ⟨true, true, [], [], [], [0, 1], ⟨if yes then 2 else 1, slots.set 0 1 true,
    if yes then [0, 1] else [1], if yes then [] else [0]⟩, []⟩

theorem uncovered_sampleCluster : uncovered sampleCluster sampleCluster.slots = [0, 1] := by
  have hcovered : ∀ s, Covered sampleCluster sampleCluster.slots s ↔ 2 ≤ s := fun s =>
    ⟨fun ⟨_, _, h⟩ => of_decide_eq_true h, fun h => ⟨0, Nat.one_pos, decide_eq_true h⟩⟩
  have hlt : uncovered sampleCluster sampleCluster.slots =
      (List.range managerSlots).filter fun s => s < 2 := by
    refine List.filter_congr fun s hs => ?_
    rw [Bool.eq_iff_iff, decide_eq_true_eq, Bool.not_eq_true', Bool.eq_false_iff, Ne,
      (getCoveredSlots_spec _ _).1, hcovered]
    have hs := List.mem_range.mp hs
    omega
  have hnil : ((List.range 16382).map (2 + ·)).filter (fun s => s < 2) = [] := by
    rw [List.filter_eq_nil_iff]
    intro s hs
    obtain ⟨t, -, rfl⟩ := List.mem_map.mp hs
    rw [decide_eq_true_eq]
    omega
  rw [hlt, show managerSlots = 2 + 16382 from rfl, List.range_add, List.filter_append, hnil]
  rfl

theorem run_sampleCluster (yes : Bool) :
    (checkCluster sampleCluster ⟨true, false, false, 10⟩ 1).run (sampleAnswer yes) 0 =
      .ok (sampleReport yes) := by
  have hunc := uncovered_sampleCluster
  have hpart := fun h => List.cons_ne_nil 0 [1] (hunc.symm.trans (uncovered_eq_nil.mpr h))
  rw [uncovered] at hunc
  have hmem : ∀ s ∈ [0, 1], (getCoveredSlots sampleCluster sampleCluster.slots).1 s = false := by
    rw [← hunc]
    exact fun s hs => by simpa using (List.mem_filter.mp hs).2
  have hopened : checkOpened sampleCluster ⟨true, false, false, 10⟩ 1 true =
      pure ((true, []), sampleCluster.slots) := rfl
  rw [checkCluster, if_neg (by decide), show isConfigConsistent sampleCluster
    = pure (true, []) from rfl,
    bind_pure_eq, hopened, bind_pure_eq]
  dsimp only
  rw [checkCoverage, if_neg hpart, if_pos rfl, uncovered, fixSlotsCoverage, uncoveredSlots]
  generalize (getCoveredSlots sampleCluster sampleCluster.slots).1 = all at hunc hmem ⊢
  rw [each_filter (fun s => !all s) (fun t i hi => if_pos (by simpa using hi)), hunc]
  simp only [each, hmem 0 List.mem_cons_self, hmem 1 (List.mem_cons_of_mem _ List.mem_cons_self)]
  cases yes
  · rfl
  · rfl

end ClusterManager
