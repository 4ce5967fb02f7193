/-
`redis-cli --cluster rebalance` ends and balances.

The leftover of the rounding is spread over the nodes without a surplus (`spreadLoop_spec`):
there is one as long as the leftover is smaller than the number of nodes.  After that the
balances add up to zero and are sorted, and the loop over the two indexes keeps this of the
segment between them (`Segment`): its first node has no surplus, its last node no deficit, and
each step settles one of the two.  `RebalanceInv` is what the steps keep of the bitmaps and of
the moves; `slots_count` is not updated, but cancels out of the share of a single source.
-/
import DecomposeRedis.ReshardSpec

namespace ClusterManager

open Function Dialogue
open ClusterCreate (managerSlots)

/-! ### Sums over the nodes -/

theorem sum_update {l : List ℕ} (hl : l.Nodup) {n : ℕ} (hn : n ∈ l) (f : ℕ → ℤ) (v : ℤ) :
    (l.map (update f n v)).sum = (l.map f).sum - f n + v := by
  have hrest : (l.erase n).map (update f n v) = (l.erase n).map f :=
    List.map_congr_left fun m hm => update_of_ne (hl.mem_erase_iff.mp hm).1 v f
  rw [← List.sum_map_erase f hn, ← List.sum_map_erase (update f n v) hn, hrest, update_self]
  ring

/-! ### Spreading the leftover -/

/-- A surplus stays as it is, the other balances may go down. -/
structure Spread (before after : ℕ → ℤ) : Prop where
  surplus : ∀ n, 0 < before n → after n = before n
  others : ∀ n, before n ≤ 0 → after n ≤ before n

theorem Spread.refl (b : ℕ → ℤ) : Spread b b := ⟨fun _ _ => rfl, fun _ _ => le_rfl⟩

theorem Spread.trans {a b c : ℕ → ℤ} (h : Spread a b) (h' : Spread b c) : Spread a c where
  surplus n hn := by
    have := h.surplus n hn
    rw [h'.surplus n (by omega), this]
  others n hn := by
    have := h.others n hn
    exact (h'.others n (by omega)).trans this

theorem spread_update {b : ℕ → ℤ} {n : ℕ} (h : b n ≤ 0) : Spread b (update b n (b n - 1)) := by
  constructor
  · intro m hm
    rw [update_of_ne]
    rintro rfl
    omega
  · intro m _
    by_cases hmn : m = n
    · subst hmn
      simp
    · rw [update_of_ne hmn]

theorem spreadPass_spec {involved : List ℕ} (hl : involved.Nodup) (nodes : List ℕ) :
    ∀ (balance : ℕ → ℤ) (total : ℤ), nodes ⊆ involved → 0 ≤ total → ∀ r,
      spreadPass balance total nodes = r →
      Spread balance r.1 ∧ (involved.map r.1).sum - r.2 = (involved.map balance).sum - total ∧
        0 ≤ r.2 ∧ r.2 ≤ total ∧ ((∃ n ∈ nodes, balance n ≤ 0) → 0 < total → r.2 < total) := by
  induction nodes with
  | nil =>
    rintro balance total - h0 _ rfl
    exact ⟨Spread.refl _, rfl, h0, le_rfl, fun ⟨n, hn, _⟩ => absurd hn List.not_mem_nil⟩
  | cons n nodes ih =>
    rintro balance total hsub h0 r hr
    have hn : n ∈ involved := hsub List.mem_cons_self
    have hsub' : nodes ⊆ involved := fun m hm => hsub (List.mem_cons_of_mem _ hm)
    rw [spreadPass] at hr
    split_ifs at hr with h
    · obtain ⟨hs, hsum, hpos, hle, -⟩ := ih _ _ hsub' (by omega) r hr
      refine ⟨(spread_update h.1).trans hs, ?_, hpos, by omega, fun _ _ => by omega⟩
      rw [hsum, sum_update hl hn]
      ring
    · obtain ⟨hs, hsum, hpos, hle, hlt⟩ := ih _ _ hsub' h0 r hr
      refine ⟨hs, hsum, hpos, hle, fun ⟨m, hm, hb⟩ ht => ?_⟩
      rcases List.mem_cons.1 hm with rfl | hm
      · exact absurd ⟨hb, ht⟩ h
      · exact hlt ⟨m, hm, hb⟩ ht

/-- The leftover is spread after as many passes as there are slots left over. -/
theorem spreadLoop_spec {involved : List ℕ} (hl : involved.Nodup) (fuel : ℕ) :
    ∀ (balance : ℕ → ℤ) (total : ℤ), 0 ≤ total → total < fuel → (involved.map balance).sum = total →
      (∃ n ∈ involved, balance n ≤ 0) →
      ∃ after, spreadLoop involved fuel balance total = some after ∧ Spread balance after ∧
      (involved.map after).sum = 0 := by
  induction fuel with
  | zero => intro balance total h0 hf; omega
  | succ fuel ih =>
    rintro balance total h0 hf hsum ⟨n, hn, hb⟩
    rw [spreadLoop]
    split_ifs with ht
    · obtain ⟨hs, hsum', hpos, -, hlt⟩ :=
        spreadPass_spec hl involved balance total (fun _ h => h) h0 _ rfl
      have hdec := hlt ⟨n, hn, hb⟩ ht
      obtain ⟨after, ha, hs', hz⟩ := ih (spreadPass balance total involved).1
        (spreadPass balance total involved).2 hpos
        (by omega) (by omega) ⟨n, hn, (hs.others n hb).trans hb⟩
      exact ⟨after, ha, hs.trans hs', hz⟩
    · exact ⟨balance, rfl, Spread.refl _, by omega⟩

/-! ### The bitmaps -/

variable {slots : Slots} {balance : ℕ → ℤ}

theorem mem_ownedSlots {n j : ℕ} :
    j ∈ ownedSlots slots n ↔ j < managerSlots ∧ slots n j = true := by
  simp [ownedSlots]

/-- A slot goes from one node to another. -/
def Slots.move (slots : Slots) (source target slot : ℕ) : Slots :=
  (slots.set source slot false).set target slot true

theorem mem_ownedSlots_move {source target slot n j : ℕ} (hne : source ≠ target)
    (hs : slot < managerSlots) :
    j ∈ ownedSlots (slots.move source target slot) n ↔
      if j = slot then n = target ∨ n ≠ source ∧ j ∈ ownedSlots slots n
        else j ∈ ownedSlots slots n := by
  rw [mem_ownedSlots, mem_ownedSlots, Slots.move, Slots.set, Slots.set]
  by_cases hj : j = slot
  · subst hj
    by_cases ht : n = target
    · subst ht
      simp [hs]
    · by_cases hsrc : n = source
      · subst hsrc
        simp [ht]
      · simp [ht, hsrc]
  · by_cases ht : n = target
    · subst ht
      simp [hj, hne.symm]
    · by_cases hsrc : n = source
      · subst hsrc
        simp [ht, hj]
      · simp [ht, hsrc, hj]

section Move

variable {slots : Slots} {source target slot : ℕ}

theorem ownedSlots_move_source (hne : source ≠ target) (h : slot ∈ ownedSlots slots source) :
    (ownedSlots slots source).Perm (slot :: ownedSlots (slots.move source target slot) source) := by
  have hs := (mem_ownedSlots.1 h).1
  have hnot : slot ∉ ownedSlots (slots.move source target slot) source := by
    rw [mem_ownedSlots_move hne hs]
    simp [hne]
  refine (List.perm_ext_iff_of_nodup (ownedSlots_nodup _ _) (List.nodup_cons.2 ⟨hnot,
    ownedSlots_nodup _ _⟩)).2 fun j => ?_
  rw [List.mem_cons, mem_ownedSlots_move hne hs]
  by_cases hj : j = slot
  · simp [hj, h]
  · simp [hj]

theorem ownedSlots_move_target (hne : source ≠ target) (hs : slot < managerSlots)
    (h : slot ∉ ownedSlots slots target) :
    (ownedSlots (slots.move source target slot) target).Perm (slot :: ownedSlots slots target) := by
  refine (List.perm_ext_iff_of_nodup (ownedSlots_nodup _ _) (List.nodup_cons.2 ⟨h,
    ownedSlots_nodup _ _⟩)).2 fun j => ?_
  rw [List.mem_cons, mem_ownedSlots_move hne hs]
  by_cases hj : j = slot
  · simp [hj]
  · simp [hj]

theorem ownedSlots_move_other {n : ℕ} (hsrc : n ≠ source) (ht : n ≠ target) :
    ownedSlots (slots.move source target slot) n = ownedSlots slots n := by
  simp [ownedSlots, Slots.move, Slots.set, hsrc, ht]

end Move

/-! ### The moves of one step -/

/-- The balances after `k` slots were moved. -/
def shift (balance : ℕ → ℤ) (dst src : ℕ) (k : ℤ) : ℕ → ℤ :=
  update (update balance dst (balance dst + k)) src (update balance dst (balance dst + k) src - k)

section Shift

variable {balance : ℕ → ℤ} {dst src : ℕ} {k : ℤ}

theorem shift_dst (h : src ≠ dst) : shift balance dst src k dst = balance dst + k := by
  simp [shift, h.symm]

theorem shift_src (h : src ≠ dst) : shift balance dst src k src = balance src - k := by
  simp [shift, h]

theorem shift_other {n : ℕ} (hd : n ≠ dst) (hs : n ≠ src) :
    shift balance dst src k n = balance n := by
  simp [shift, hd, hs]

theorem shift_zero (h : src ≠ dst) : shift balance dst src 0 = balance := by
  simp [shift, h]

theorem shift_shift (h : src ≠ dst) (k' : ℤ) :
    shift (shift balance dst src k) dst src k' = shift balance dst src (k + k') := by
  funext n
  by_cases hd : n = dst
  · subst hd
    simp only [shift_dst h]
    ring
  · by_cases hs : n = src
    · subst hs
      simp only [shift_src h]
      ring
    · simp only [shift_other hd hs]

end Shift

/-- A move changes the numbers of slots as it changes the balances. -/
theorem length_ownedSlots_move {src dst slot : ℕ} (hne : src ≠ dst)
    (hslot : slot ∈ ownedSlots slots src) (hnot : slot ∉ ownedSlots slots dst) (n : ℕ) :
    ((ownedSlots (slots.move src dst slot) n).length : ℤ)
      = shift (fun n => (ownedSlots slots n).length) dst src 1 n := by
  by_cases hnd : n = dst
  · subst hnd
    have hlen := (ownedSlots_move_target hne (mem_ownedSlots.1 hslot).1 hnot).length_eq
    rw [List.length_cons] at hlen
    rw [shift_dst hne]
    omega
  · by_cases hns : n = src
    · subst hns
      have hlen := (ownedSlots_move_source hne hslot).length_eq
      rw [List.length_cons] at hlen
      rw [shift_src hne]
      omega
    · rw [shift_other hnd hns, ownedSlots_move_other hns hnd]

theorem shift_eq_add {f g : ℕ → ℤ} {dst src n : ℕ} {k : ℤ} (hne : src ≠ dst)
    (hf : f n = g n + balance n) :
    shift f dst src k n = g n + shift balance dst src k n := by
  by_cases hnd : n = dst
  · subst hnd
    rw [shift_dst hne, shift_dst hne]
    omega
  · by_cases hns : n = src
    · subst hns
      rw [shift_src hne, shift_src hne]
      omega
    · rw [shift_other hnd hns, shift_other hnd hns, hf]

/-- Surpluses and deficits do not arise from the moves of a step. -/
theorem shift_signs {dst src : ℕ} {k : ℤ} (h0 : 0 ≤ k) (hd : balance dst + k ≤ 0)
    (hs : k ≤ balance src) (hne : src ≠ dst) (n : ℕ) :
    (0 < shift balance dst src k n → 0 < balance n) ∧
      (shift balance dst src k n < 0 → balance n < 0) := by
  by_cases hnd : n = dst
  · subst hnd
    rw [shift_dst hne]
    omega
  · by_cases hns : n = src
    · subst hns
      rw [shift_src hne]
      omega
    · rw [shift_other hnd hns]
      exact ⟨id, id⟩

variable {involved : List ℕ} {slotsCount expected : ℕ → ℕ} {goal : ℕ → ℤ}

/-- The nodes own no slot together. -/
def Apart (involved : List ℕ) (slots : Slots) : Prop :=
  ∀ n ∈ involved, ∀ m ∈ involved, ∀ j ∈ ownedSlots slots n, j ∈ ownedSlots slots m → n = m

theorem Apart.move (h : Apart involved slots) {src dst slot : ℕ} (hs : src ∈ involved)
    (hne : src ≠ dst) (hslot : slot ∈ ownedSlots slots src) :
    Apart involved (slots.move src dst slot) := by
  have hlt := (mem_ownedSlots.1 hslot).1
  -- the slot was owned by the source only
  have only : ∀ i ∈ involved, i = dst ∨ i ≠ src ∧ slot ∈ ownedSlots slots i → i = dst := by
    rintro i hi (rfl | ⟨hisrc, hown⟩)
    · rfl
    · exact absurd (h i hi src hs slot hown hslot) hisrc
  intro n hn m hm j hjn hjm
  rw [mem_ownedSlots_move hne hlt] at hjn hjm
  by_cases hj : j = slot
  · subst hj
    rw [if_pos rfl] at hjn hjm
    rw [only n hn hjn, only m hm hjm]
  · rw [if_neg hj] at hjn hjm
    exact h n hn m hm j hjn hjm

/-- What holds of the balances, the bitmaps and the moves while slots are moved; `goal` is the
number of slots that a node ends with. -/
structure RebalanceInv (involved : List ℕ) (slotsCount expected : ℕ → ℕ) (goal : ℕ → ℤ)
    (st : Rebalance) : Prop where
  counts : ∀ n ∈ involved, ((ownedSlots st.slots n).length : ℤ) = goal n + st.balance n
  apart : Apart involved st.slots
  donor : ∀ n ∈ involved, 0 < st.balance n → expected n < slotsCount n
  taker : ∀ n ∈ involved, st.balance n < 0 → slotsCount n ≤ expected n
  fresh : ∀ m ∈ st.moves, ∀ n ∈ involved, m.slot ∈ ownedSlots st.slots n → slotsCount n ≤ expected n
  nodup : (st.moves.map Move.slot).Nodup
  lawful : ∀ m ∈ st.moves, m.source ∈ involved ∧ m.target ∈ involved ∧
    expected m.source < slotsCount m.source ∧
    expected m.source < m.owned ∧ slotsCount m.target ≤ expected m.target

/-- One slot is moved. -/
theorem RebalanceInv.move {moves : List Move}
    (h : RebalanceInv involved slotsCount expected goal ⟨balance, slots, moves⟩)
    (hg : ∀ n, expected n < slotsCount n → goal n = expected n) {dst src slot : ℕ}
    (hd : dst ∈ involved) (hs : src ∈ involved) (hslot : slot ∈ ownedSlots slots src)
    (hdb : balance dst < 0) (hsb : 0 < balance src) :
    RebalanceInv involved slotsCount expected goal ⟨shift balance dst src 1,
      slots.move src dst slot,
      moves ++ [⟨slot, src, dst, (ownedSlots slots src).length⟩]⟩ := by
  have hne : src ≠ dst := by
    rintro rfl
    omega
  have hlt := (mem_ownedSlots.1 hslot).1
  have hdonor := h.donor src hs hsb
  have htaker := h.taker dst hd hdb
  have hnot : slot ∉ ownedSlots slots dst := fun hm => hne (h.apart src hs dst hd slot hslot hm)
  have hfresh : ∀ m ∈ moves, m.slot ≠ slot := by
    rintro m hm rfl
    have := h.fresh m hm src hs hslot
    omega
  have hsigns := shift_signs (show (0 : ℤ) ≤ 1 by decide) (show balance dst + 1 ≤ 0 by omega)
    (show 1 ≤ balance src by omega) hne
  refine ⟨fun n hn => ?_, h.apart.move hs hne hslot,
    fun n hn hpos => h.donor n hn ((hsigns n).1 hpos),
    fun n hn hneg => h.taker n hn ((hsigns n).2 hneg), fun m hm n hn hown => ?_, ?_, fun m hm => ?_⟩
  · exact (length_ownedSlots_move hne hslot hnot n).trans (shift_eq_add hne (h.counts n hn))
  · have hown := (mem_ownedSlots_move hne hlt).1 hown
    rcases List.mem_append.1 hm with hm | hm
    · rw [if_neg (hfresh m hm)] at hown
      exact h.fresh m hm n hn hown
    · obtain rfl := List.mem_singleton.1 hm
      rw [if_pos rfl] at hown
      rcases hown with rfl | ⟨hns, hown⟩
      · exact htaker
      · exact absurd (h.apart n hn src hs slot hown hslot) hns
  · have hnew : slot ∉ moves.map Move.slot := fun hm => by
      obtain ⟨m, hm, he⟩ := List.mem_map.1 hm
      exact hfresh m hm he
    rw [List.map_append, List.map_singleton, ← List.concat_eq_append]
    exact h.nodup.concat hnew
  · rcases List.mem_append.1 hm with hm | hm
    · exact h.lawful m hm
    · obtain rfl := List.mem_singleton.1 hm
      have hcount : ((ownedSlots slots src).length : ℤ) = goal src + balance src := h.counts src hs
      have hgoal := hg src hdonor
      refine ⟨hs, hd, hdonor, ?_, htaker⟩
      dsimp only
      omega

/-- A table is moved. -/
theorem moveItems_spec {moveOk : Move → Bool} (hok : ∀ m, moveOk m = true)
    (hg : ∀ n, expected n < slotsCount n → goal n = expected n) {dst src : ℕ}
    (hd : dst ∈ involved) (hs : src ∈ involved) (hne : src ≠ dst) (js : List ℕ) :
    ∀ (balance : ℕ → ℤ) (slots : Slots) (moves : List Move),
      RebalanceInv involved slotsCount expected goal ⟨balance, slots, moves⟩ → js.Nodup →
      js ⊆ ownedSlots slots src →
      balance dst + js.length ≤ 0 → js.length ≤ balance src → ∀ r,
        moveItems moveOk dst (js.map (⟨src, ·⟩)) slots moves = r →
      r.1 = true ∧ RebalanceInv involved slotsCount expected goal ⟨shift balance dst src js.length,
        r.2.1, r.2.2⟩ := by
  induction js with
  | nil =>
    rintro balance slots moves h - - - - _ rfl
    refine ⟨rfl, ?_⟩
    rw [List.length_nil, Nat.cast_zero, shift_zero hne]
    exact h
  | cons j js ih =>
    intro balance slots moves h hnd hsub hdb hsb r hr
    obtain ⟨hj, hnd⟩ := List.nodup_cons.1 hnd
    have hjs : j ∈ ownedSlots slots src := hsub List.mem_cons_self
    rw [List.length_cons] at hdb hsb
    push_cast at hdb hsb
    have hstep := h.move hg hd hs hjs (by omega) (by omega)
    have hsub' : js ⊆ ownedSlots (slots.move src dst j) src := by
      intro i hi
      have hij : i ≠ j := fun he => hj (he ▸ hi)
      rw [mem_ownedSlots_move hne (mem_ownedSlots.1 hjs).1, if_neg hij]
      exact hsub (List.mem_cons_of_mem _ hi)
    rw [List.map_cons, moveItems, if_pos (hok _)] at hr
    have := ih _ _ _ hstep hnd hsub' (by rw [shift_dst hne]; omega)
      (by rw [shift_src hne]; omega) r hr
    rw [shift_shift hne] at this
    rw [List.length_cons, Nat.cast_add, Nat.cast_one, add_comm]
    exact this

/-- The table for one source has as many slots as asked for: its `slots_count` cancels out. -/
theorem computeReshardTable_single {qsort : (ℕ → ℤ) → List ℕ → List ℕ} (hq : Sorts qsort)
    {src numslots : ℕ} (hc : 0 < slotsCount src) :
    computeReshardTable qsort slots slotsCount [src] numslots = given slots src numslots := by
  have hsort : qsort (fun n => -(slotsCount n : ℤ)) [src] = [src] :=
    List.perm_singleton.1 (hq.perm _ _)
  have hshare : share numslots (slotsCount src) (slotsCount src) true = numslots := by
    simp [share, Nat.mul_div_cancel _ hc]
  have htot : ([src].map slotsCount).sum = slotsCount src := by simp
  rw [computeReshardTable, hsort, htot, reshardLoop, reshardLoop,
    takeSlots_share hc (by simp [hshare])]
  simp [hshare]

/-! ### The loop over the two indexes -/

variable {qsort : (ℕ → ℤ) → List ℕ → List ℕ} {moveOk : Move → Bool}

theorem moveTable_spec (hq : Sorts qsort) (hok : ∀ m, moveOk m = true)
    (hg : ∀ n, expected n < slotsCount n → goal n = expected n) {st : Rebalance}
    (h : RebalanceInv involved slotsCount expected goal st) {dst src k : ℕ} (hd : dst ∈ involved)
    (hs : src ∈ involved) (hne : src ≠ dst) (hdb : st.balance dst + k ≤ 0)
    (hsb : k ≤ st.balance src) :
    ∃ st', moveTable qsort moveOk false slotsCount dst src k st = (.balanced, st') ∧
      RebalanceInv involved slotsCount expected goal ⟨shift st.balance dst src k,
        st'.slots, st'.moves⟩ := by
  by_cases hk : 0 < k
  · have hdonor := h.donor src hs (by omega)
    have hcount := h.counts src hs
    have hgoal := hg src hdonor
    have hjs : ((ownedSlots st.slots src).take k).length = k := by
      rw [List.length_take]
      omega
    have hlen : (given st.slots src k).length = k := by rw [given, List.length_map, hjs]
    have hmoves := moveItems_spec hok hg hd hs hne ((ownedSlots st.slots src).take k) st.balance
      st.slots st.moves h
      ((ownedSlots_nodup _ _).sublist (List.take_sublist _ _)) (List.take_subset _ _)
        (by rw [hjs]; omega) (by rw [hjs]; omega) _ rfl
    rw [hjs, ← given] at hmoves
    refine ⟨⟨st.balance, _, _⟩, ?_, hmoves.2⟩
    rw [moveTable, if_pos hk]
    simp [computeReshardTable_single hq (show 0 < slotsCount src by omega), hlen, hmoves.1]
  · obtain rfl : k = 0 := by omega
    refine ⟨st, if_neg hk, ?_⟩
    rw [Nat.cast_zero, shift_zero hne]
    exact h

/-- What the loop keeps of the nodes between the two indexes: their balances add up to zero, and
no deficit comes after a surplus. -/
structure Segment (balance : ℕ → ℤ) (nodes : List ℕ) : Prop where
  nodup : nodes.Nodup
  sum : (nodes.map balance).sum = 0
  signs : nodes.Pairwise fun a b => (0 < balance a → 0 < balance b) ∧
    (balance b < 0 → balance a < 0)

section Segment

variable {balance : ℕ → ℤ} {dst src : ℕ} {mid nodes : List ℕ}

/-- The first node has no surplus. -/
theorem Segment.first_nonpos (h : Segment balance (dst :: mid)) : balance dst ≤ 0 := by
  by_contra hpos
  have hrest : 0 ≤ (mid.map balance).sum := by
    refine List.sum_nonneg fun x hx => ?_
    obtain ⟨n, hn, rfl⟩ := List.mem_map.1 hx
    exact ((List.rel_of_pairwise_cons h.signs hn).1 (by omega)).le
  have hsum := h.sum
  rw [List.map_cons, List.sum_cons] at hsum
  omega

/-- The last node has no deficit. -/
theorem Segment.last_nonneg (h : Segment balance (mid ++ [src])) : 0 ≤ balance src := by
  by_contra hneg
  have hle : ∀ n ∈ mid, balance n ≤ 0 := by
    intro n hn
    have := (List.pairwise_append.1 h.signs).2.2 n hn src (List.mem_singleton_self src)
    exact (this.2 (by omega)).le
  have hrest : (mid.map balance).sum ≤ 0 := by
    simpa using List.sum_le_sum hle
  have hsum := h.sum
  rw [List.map_append, List.sum_append, List.map_singleton, List.sum_singleton] at hsum
  omega

/-- A single node is settled. -/
theorem Segment.settled (h : Segment balance nodes) (hl : nodes.length ≤ 1) {n : ℕ}
    (hn : n ∈ nodes) :
    balance n = 0 := by
  have hpos := List.length_pos_of_mem hn
  obtain ⟨a, rfl⟩ := List.length_eq_one_iff.1 (show nodes.length = 1 by omega)
  obtain rfl := List.mem_singleton.1 hn
  have hsum := h.sum
  rwa [List.map_singleton, List.sum_singleton] at hsum

theorem exists_ends (h : 2 ≤ nodes.length) : ∃ dst mid src, nodes = dst :: mid ++ [src] := by
  obtain ⟨dst, rest, rfl⟩ := List.exists_cons_of_length_pos (show 0 < nodes.length by omega)
  rcases List.eq_nil_or_concat rest with rfl | ⟨mid, src, rfl⟩
  · simp at h
  · exact ⟨dst, mid, src, by simp⟩

theorem sum_shift (hl : nodes.Nodup) (hd : dst ∈ nodes) (hs : src ∈ nodes) (k : ℤ) :
    (nodes.map (shift balance dst src k)).sum = (nodes.map balance).sum := by
  rw [shift, sum_update hl hs, sum_update hl hd]
  ring

/-- The nodes of the next round. -/
def nextNodes (balance : ℕ → ℤ) (dst src : ℕ) (mid : List ℕ) : List ℕ :=
  (if balance dst = 0 then [] else [dst]) ++ mid ++ (if balance src = 0 then [] else [src])

theorem mem_nextNodes {n : ℕ} : n ∈ nextNodes balance dst src mid ↔
    n = dst ∧ balance dst ≠ 0 ∨ n ∈ mid ∨ n = src ∧ balance src ≠ 0 := by
  rw [nextNodes]
  split_ifs with hd hs hs <;> simp [hd, hs]

theorem nextNodes_sublist : (nextNodes balance dst src mid).Sublist (dst :: mid ++ [src]) := by
  have hfirst : (if balance dst = 0 then [] else [dst]).Sublist [dst] := by split_ifs <;> simp
  have hlast : (if balance src = 0 then [] else [src]).Sublist [src] := by split_ifs <;> simp
  exact (hfirst.append (List.Sublist.refl mid)).append hlast

theorem sum_nextNodes : ((nextNodes balance dst src mid).map balance).sum
    = ((dst :: mid ++ [src]).map balance).sum := by
  rw [nextNodes]
  split_ifs with hd hs hs <;> simp [hd, hs]

theorem nextNodes_length_lt (h : balance dst = 0 ∨ balance src = 0) :
    (nextNodes balance dst src mid).length < (dst :: mid ++ [src]).length := by
  rw [nextNodes]
  split_ifs with hd hs hs
  · simp
  · simp
  · simp
  · exact absurd h (by simp [hd, hs])

/-- One round keeps the segment. -/
theorem Segment.next (h : Segment balance (dst :: mid ++ [src])) {k : ℤ} (h0 : 0 ≤ k)
    (hd : balance dst + k ≤ 0) (hs : k ≤ balance src) :
    Segment (shift balance dst src k) (nextNodes (shift balance dst src k) dst src mid) := by
  have hsub : (nextNodes (shift balance dst src k) dst src mid).Sublist (dst :: mid ++ [src]) :=
    nextNodes_sublist
  have hmid : dst ∉ mid ++ [src] := (List.nodup_cons.1 h.nodup).1
  have hlast : src ∉ mid := fun hm => (List.nodup_append'.1 h.nodup).2.2
    (List.mem_cons_of_mem dst hm) (List.mem_singleton_self src)
  have hne : src ≠ dst := fun he => hmid (by simp [he])
  refine ⟨h.nodup.sublist hsub, ?_, ?_⟩
  · rw [sum_nextNodes, sum_shift h.nodup (by simp) (by simp)]
    exact h.sum
  · -- a node that stays keeps the sign of its balance
    have hsign : ∀ n ∈ nextNodes (shift balance dst src k) dst src mid,
        (0 < shift balance dst src k n ↔ 0 < balance n) ∧
          (shift balance dst src k n < 0 ↔ balance n < 0) := by
      intro n hn
      rcases mem_nextNodes.1 hn with ⟨rfl, hz⟩ | hn | ⟨rfl, hz⟩
      · rw [shift_dst hne] at hz ⊢
        omega
      · have hnd : n ≠ dst := fun he => hmid (he ▸ List.mem_append_left _ hn)
        have hns : n ≠ src := fun he => hlast (he ▸ hn)
        rw [shift_other hnd hns]
        exact ⟨Iff.rfl, Iff.rfl⟩
      · rw [shift_src hne] at hz ⊢
        omega
    refine (h.signs.sublist hsub).imp_of_mem fun {a b} ha hb hab => ?_
    rw [(hsign a ha).1, (hsign b hb).1, (hsign a ha).2, (hsign b hb).2]
    exact hab

end Segment

/-- The loop ends with all balances settled. -/
theorem moveLoop_spec (hq : Sorts qsort) (hok : ∀ m, moveOk m = true)
    (hg : ∀ n, expected n < slotsCount n → goal n = expected n) {sorted : List ℕ}
    (hsorted : ∀ n ∈ sorted, n ∈ involved) (fuel : ℕ) :
    ∀ (left nodes right : List ℕ) (dstIdx srcIdx : ℕ) (st : Rebalance),
      sorted = left ++ nodes ++ right →
      dstIdx = left.length → srcIdx + 1 = left.length + nodes.length → nodes.length < fuel →
      Segment st.balance nodes → (∀ n ∈ left ++ right, st.balance n = 0) →
      RebalanceInv involved slotsCount expected goal st →
      ∃ st', moveLoop qsort moveOk false slotsCount sorted fuel dstIdx srcIdx st
        = some (.balanced, st') ∧
        RebalanceInv involved slotsCount expected goal st' ∧ ∀ n ∈ sorted, st'.balance n = 0 := by
  induction fuel with
  | zero => intro left nodes right dstIdx srcIdx st _ _ _ hf; omega
  | succ fuel ih =>
    rintro left nodes right dstIdx srcIdx st hsplit rfl hidx hf hseg hout hinv
    rw [moveLoop]
    split_ifs with hlt
    · -- at least two nodes are left
      obtain ⟨dst, mid, src, rfl⟩ := exists_ends (show 2 ≤ nodes.length by omega)
      have hmem : ∀ n ∈ dst :: mid ++ [src], n ∈ involved := fun n hn =>
        hsorted n (by rw [hsplit]; exact List.mem_append_left _ (List.mem_append_right _ hn))
      have hgetd : sorted[left.length]? = some dst := by
        rw [hsplit]
        simp
      have hsrcIdx : srcIdx = left.length + (mid.length + 1) := by
        simp only [List.length_cons, List.length_append, List.length_nil] at hidx
        omega
      have hgets : sorted[srcIdx]? = some src := by
        rw [hsplit, hsrcIdx]
        simp
      have hne : src ≠ dst := fun he => (List.nodup_cons.1 hseg.nodup).1 (by simp [he])
      have hdb := hseg.first_nonpos
      have hsb := hseg.last_nonneg
      obtain ⟨k, hk⟩ : ∃ k, min (st.balance dst).natAbs (st.balance src).natAbs = k := ⟨_, rfl⟩
      have hdk : st.balance dst + k ≤ 0 := by omega
      have hsk : k ≤ st.balance src := by omega
      obtain ⟨st', hst', hinv'⟩ := moveTable_spec hq hok hg hinv (hmem dst (by simp))
        (hmem src (by simp)) hne hdk hsk
      have hsettled : shift st.balance dst src k dst = 0 ∨ shift st.balance dst src k src = 0 := by
        rw [shift_dst hne, shift_src hne]
        omega
      have hshorter : (nextNodes (shift st.balance dst src k) dst src mid).length
          < (dst :: mid ++ [src]).length :=
        nextNodes_length_lt hsettled
      simp only [hgetd, hgets, hk, hst', if_true]
      refine ih (left ++ if shift st.balance dst src k dst = 0 then [dst] else [])
        (nextNodes (shift st.balance dst src k) dst src mid)
        ((if shift st.balance dst src k src = 0 then [src] else []) ++ right) _ _ _ ?_ ?_ ?_ ?_
        (hseg.next (by omega) hdk hsk) ?_ hinv'
      · rw [hsplit, nextNodes]
        split_ifs <;> simp
      · show (if shift st.balance dst src k dst = 0 then left.length + 1 else left.length) = _
        split_ifs <;> simp
      · show (if shift st.balance dst src k src = 0 then srcIdx - 1 else srcIdx) + 1 = _
        rw [nextNodes, hsrcIdx]
        split_ifs <;> simp <;> omega
      · simp only [List.length_cons, List.length_append, List.length_nil] at hf hshorter
        omega
      · intro n hn
        have hcases : n ∈ left ++ right ∨ n = dst ∧ shift st.balance dst src k dst = 0 ∨
            n = src ∧ shift st.balance dst src k src = 0 := by
          split_ifs at hn with hd hs hs <;> simp at hn ⊢ <;> tauto
        rcases hcases with hn | ⟨rfl, hz⟩ | ⟨rfl, hz⟩
        · have hz := hout n hn
          have hsigns := shift_signs (show (0 : ℤ) ≤ k by omega) hdk hsk hne n
          show shift st.balance dst src k n = 0
          omega
        · exact hz
        · exact hz
    · refine ⟨st, rfl, hinv, fun n hn => ?_⟩
      rw [hsplit] at hn
      by_cases hin : n ∈ left ++ right
      · exact hout n hin
      · have hn' : n ∈ nodes := by
          simp only [List.mem_append] at hn hin
          tauto
        exact hseg.settled (by omega) hn'

/-! ### The whole command -/

/-- The slots of the nodes that share them out. -/
theorem sum_ownedSlots (hl : involved.Nodup)
    (hp : ∀ j < managerSlots, ∃ n ∈ involved, slots n j = true) (ha : Apart involved slots) :
    (involved.map fun n => (ownedSlots slots n).length).sum = managerSlots := by
  have hnd : (involved.flatMap (ownedSlots slots)).Nodup := by
    refine List.nodup_flatMap.2 ⟨fun n _ => ownedSlots_nodup slots n,
      hl.imp_of_mem fun {n m} hn hm hne j hj hj' => ?_⟩
    exact hne (ha n hn m hm j hj hj')
  have hperm : (involved.flatMap (ownedSlots slots)).Perm (List.range managerSlots) := by
    refine (List.perm_ext_iff_of_nodup hnd List.nodup_range).2 fun j => ?_
    rw [List.mem_flatMap, List.mem_range]
    constructor
    · rintro ⟨n, -, hj⟩
      exact (mem_ownedSlots.1 hj).1
    · intro hj
      obtain ⟨n, hn, hown⟩ := hp j hj
      exact ⟨n, hn, mem_ownedSlots.2 ⟨hj, hown⟩⟩
  have hlen := hperm.length_eq
  rwa [List.length_flatMap, List.length_range] at hlen

/-- Some node has no surplus when less slots than nodes are left over. -/
theorem exists_nonpos (h : (involved.map balance).sum < involved.length) :
    ∃ n ∈ involved, balance n ≤ 0 := by
  by_contra hno
  have hge : ∀ n ∈ involved, 1 ≤ balance n := by
    intro n hn
    by_contra hlt
    exact hno ⟨n, hn, by omega⟩
  have hsum := List.sum_le_sum hge
  simp at hsum
  omega

theorem sum_balance (slotsCount expected : ℕ → ℕ) (l : List ℕ) :
    (l.map fun n => (slotsCount n : ℤ) - expected n).sum
      = ((l.map slotsCount).sum : ℤ) - (l.map expected).sum := by
  induction l with
  | nil => simp
  | cons n l ih =>
    simp only [List.map_cons, List.sum_cons, ih]
    push_cast
    ring

/-- When every move succeeds the command ends with the donors at their expected numbers of
slots and the others at least there, and no slot is moved twice. -/
theorem rebalance_balances (hq : Sorts qsort) (hok : ∀ m, moveOk m = true) {slots : Slots}
    (hl : involved.Nodup) (hp : ∀ j < managerSlots, ∃! n, n ∈ involved ∧ slots n j = true)
    (hc : ∀ n ∈ involved, slotsCount n = (ownedSlots slots n).length)
    (hle : (involved.map expected).sum ≤ managerSlots)
    (hlt : managerSlots < (involved.map expected).sum + involved.length) {fuel : ℕ}
    (hf : involved.length < fuel) :
    ∃ st, rebalance qsort moveOk false involved slotsCount expected slots fuel
      = some (.balanced, st) ∧
      (st.moves.map Move.slot).Nodup ∧
      (∀ m ∈ st.moves, expected m.source < m.owned ∧ expected m.source < slotsCount m.source ∧
        slotsCount m.target ≤ expected m.target) ∧
      (∀ n ∈ involved, expected n < slotsCount n → (ownedSlots st.slots n).length = expected n) ∧
      ∀ n ∈ involved, slotsCount n ≤ expected n → expected n ≤ (ownedSlots st.slots n).length := by
  have happ : Apart involved slots := by
    intro n hn m hm j hjn hjm
    obtain ⟨hj, hown⟩ := mem_ownedSlots.1 hjn
    exact (hp j hj).unique ⟨hn, hown⟩ ⟨hm, (mem_ownedSlots.1 hjm).2⟩
  have htotal : (involved.map slotsCount).sum = managerSlots := by
    rw [List.map_congr_left hc]
    refine sum_ownedSlots hl (fun j hj => ?_) happ
    obtain ⟨n, hn, -⟩ := hp j hj
    exact ⟨n, hn.1, hn.2⟩
  have hsum := sum_balance slotsCount expected involved
  obtain ⟨balance, hspread, hs, hzero⟩ :=
    spreadLoop_spec hl fuel (fun n => (slotsCount n : ℤ) - expected n) _
    (by rw [hsum]; omega) (by rw [hsum]; omega) rfl (exists_nonpos (by rw [hsum]; omega))
  -- what a node ends with
  obtain ⟨goal, hgoal⟩ : ∃ goal : ℕ → ℤ, ∀ n, goal n = slotsCount n - balance n := ⟨_, fun _ => rfl⟩
  have hdonor : ∀ n, expected n < slotsCount n → goal n = expected n := by
    intro n hn
    rw [hgoal, hs.surplus n (by omega)]
    omega
  have hother : ∀ n, slotsCount n ≤ expected n → expected n ≤ goal n := by
    intro n hn
    have := hs.others n (by omega)
    rw [hgoal]
    omega
  have hinv : RebalanceInv involved slotsCount expected goal ⟨balance, slots, []⟩ := by
    refine ⟨fun n hn => ?_, happ, fun n _ hpos => ?_, fun n _ hneg => ?_,
      fun m hm => absurd hm List.not_mem_nil, List.nodup_nil,
      fun m hm => absurd hm List.not_mem_nil⟩
    · dsimp only
      rw [hgoal, ← hc n hn]
      omega
    · by_contra hno
      have := hs.others n (by omega)
      dsimp only at this hpos
      omega
    · by_contra hno
      have := hs.surplus n (by omega)
      dsimp only at this hneg
      omega
  have hperm := hq.perm balance involved
  have hseg : Segment balance (qsort balance involved) := by
    refine ⟨hperm.nodup_iff.2 hl, (hperm.map balance).sum_eq.trans hzero,
      (hq.sorted balance involved).imp fun {a b} hab => ?_⟩
    omega
  obtain ⟨st, hst, hinv', hsettled⟩ := moveLoop_spec hq hok hdonor (fun n hn => hperm.mem_iff.1 hn)
    fuel [] (qsort balance involved) []
    0 (involved.length - 1) ⟨balance, slots, []⟩ (by simp) rfl (by simp [hperm.length_eq]; omega)
      (by rw [hperm.length_eq]; exact hf)
    hseg (fun n hn => absurd hn List.not_mem_nil) hinv
  have hend : ∀ n ∈ involved, ((ownedSlots st.slots n).length : ℤ) = goal n := by
    intro n hn
    rw [hinv'.counts n hn, hsettled n (hperm.mem_iff.2 hn), add_zero]
  refine ⟨st, ?_, hinv'.nodup, fun m hm => ?_, fun n hn hd => ?_, fun n hn ho => ?_⟩
  · rw [rebalance, hspread]
    exact hst
  · obtain ⟨-, -, h1, h2, h3⟩ := hinv'.lawful m hm
    exact ⟨h2, h1, h3⟩
  · have h1 := hend n hn
    have h2 := hdonor n hd
    omega
  · have h1 := hend n hn
    have h2 := hother n ho
    omega

/-- Two masters, one of which owns all slots. -/
theorem rebalance_balances_two : ∃ st,
    rebalance insertionOrder (fun _ => true) false [0, 1] (fun n => if n = 0 then 16384 else 0)
      (fun _ => 8192)
        (fun n _ => n = 0) 3 = some (.balanced, st) ∧
      (st.moves.map Move.slot).Nodup ∧
      (∀ m ∈ st.moves, 8192 < m.owned ∧ 8192 < (if m.source = 0 then 16384 else 0) ∧
        (if m.target = 0 then 16384 else 0) ≤ 8192) ∧
      (∀ n ∈ [0, 1], 8192 < (if n = 0 then 16384 else 0) → (ownedSlots st.slots n).length = 8192) ∧
      ∀ n ∈ [0, 1], (if n = 0 then 16384 else 0) ≤ 8192 →
      8192 ≤ (ownedSlots st.slots n).length := by
  refine rebalance_balances insertionOrder_sorts (fun _ => rfl) (by decide)
    (fun j _ => ⟨0, by simp, ?_⟩) (fun n hn => ?_)
    (by decide) (by decide) (by decide)
  · rintro n ⟨-, hn⟩
    exact of_decide_eq_true hn
  · by_cases h0 : n = 0 <;> simp [ownedSlots, managerSlots, h0]

end ClusterManager
