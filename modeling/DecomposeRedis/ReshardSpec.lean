/-
What the plan of `redis-cli --cluster reshard` contains.

With exact shares the quotas never add up to more than what was asked, so that the cap on the
number of entries is never reached early: a source gives the first slots it owns, as many as
its quota (`computeReshardTable_eq`).  The quotas may add up to less, since all but one are
rounded down, and an id given twice gives the same slots twice.  `reshardPlan_exact_iff` says
when neither happens.
-/
import DecomposeRedis.Reshard
import Mathlib.Data.List.Duplicate
import Mathlib.Algebra.Order.BigOperators.Group.List

namespace ClusterManager

open Function
open ClusterCreate (managerSlots)
open Networking (text)

/-! ### The shares -/

/-- The quota of a source, in whole numbers. -/
def share (numslots tot slotsCount : ℕ) (first : Bool) : ℕ :=
  numslots * slotsCount / tot + if first ∧ numslots * slotsCount % tot ≠ 0 then 1 else 0

variable {sources : List ℕ} {first : Bool}

theorem quota_eq_share {numslots tot slotsCount : ℕ} (h : 0 < tot) :
    quota numslots tot slotsCount first = share numslots tot slotsCount first := by
  have hq : (numslots : ℚ) / tot * slotsCount = ((numslots * slotsCount : ℕ) : ℚ) / tot := by
    push_cast
    ring
  have hfloor : ⌊((numslots * slotsCount : ℕ) : ℚ) / tot⌋
      = ((numslots * slotsCount / tot : ℕ) : ℤ) := by
    exact_mod_cast Rat.floor_natCast_div_natCast (numslots * slotsCount) tot
  have ht : (0 : ℚ) < tot := by exact_mod_cast h
  rw [quota, share, hq]
  cases first with
  | false => simpa using hfloor
  | true =>
    have ha : ((numslots * slotsCount : ℕ) : ℚ) =
        tot * (numslots * slotsCount / tot : ℕ) + (numslots * slotsCount % tot : ℕ) := by
      exact_mod_cast (Nat.div_add_mod (numslots * slotsCount) tot).symm
    have hlt : ((numslots * slotsCount % tot : ℕ) : ℚ) < tot := by exact_mod_cast Nat.mod_lt _ h
    rw [if_pos rfl, Int.ceil_eq_iff, lt_div_iff₀ ht, div_le_iff₀ ht, ha]
    generalize numslots * slotsCount / tot = q at *
    generalize numslots * slotsCount % tot = r at *
    by_cases hr : r = 0
    · subst hr
      simp only [ne_eq, not_true_eq_false, and_false, if_false]
      push_cast
      constructor <;> nlinarith
    · have hpos : (0 : ℚ) < r := by exact_mod_cast Nat.pos_of_ne_zero hr
      simp only [hr, ne_eq, not_false_eq_true, and_self, if_true]
      push_cast
      constructor <;> nlinarith

theorem share_le {numslots tot slotsCount : ℕ} (hn : numslots ≤ tot) :
    share numslots tot slotsCount first ≤ slotsCount := by
  have hm := Nat.mul_le_mul_right slotsCount hn
  have hd := Nat.div_add_mod (numslots * slotsCount) tot
  rw [share]
  split_ifs with hf
  · have hpos := Nat.pos_of_ne_zero hf.2
    have hlt : tot * (numslots * slotsCount / tot) < tot * slotsCount := by omega
    exact Nat.lt_of_mul_lt_mul_left hlt
  · exact Nat.div_le_of_le_mul hm

theorem sum_shares (numslots tot : ℕ) (counts : List ℕ) :
    tot * (counts.map (numslots * · / tot)).sum + (counts.map (numslots * · % tot)).sum
      = numslots * counts.sum := by
  induction counts with
  | nil => simp
  | cons c counts ih =>
    have h := Nat.div_add_mod (numslots * c) tot
    simp only [List.map_cons, List.sum_cons, Nat.mul_add]
    omega

/-- The quotas do not add up to more than what is asked. -/
theorem shares_le {numslots tot c : ℕ} {counts : List ℕ} (h : 0 < tot) (ht : c + counts.sum = tot) :
    share numslots tot c true + (counts.map (numslots * · / tot)).sum ≤ numslots := by
  have hs := sum_shares numslots tot (c :: counts)
  rw [List.sum_cons, ht, List.map_cons, List.map_cons, List.sum_cons, List.sum_cons,
    Nat.mul_comm numslots tot] at hs
  rw [share]
  split_ifs with hf
  · have hpos := Nat.pos_of_ne_zero hf.2
    have hlt : tot * (numslots * c / tot + (counts.map (numslots * · / tot)).sum)
        < tot * numslots := by omega
    have := Nat.lt_of_mul_lt_mul_left hlt
    omega
  · have hle : tot * (numslots * c / tot + (counts.map (numslots * · / tot)).sum)
        ≤ tot * numslots := by omega
    have := Nat.le_of_mul_le_mul_left hle h
    omega

/-! ### The entries of the table -/

/-- The first slots of a source. -/
def given (slots : Slots) (n k : ℕ) : List ReshardItem := ((ownedSlots slots n).take k).map (⟨n, ·⟩)

@[simp] theorem given_slots (slots : Slots) (n k : ℕ) :
    (given slots n k).map ReshardItem.slot = (ownedSlots slots n).take k := by
  simp [given, comp_def]

theorem mem_given {slots : Slots} {n k : ℕ} {item : ReshardItem} (h : item ∈ given slots n k) :
    item.source = n ∧ item.slot ∈ ownedSlots slots n := by
  obtain ⟨j, hj, rfl⟩ := List.mem_map.1 h
  exact ⟨rfl, List.mem_of_mem_take hj⟩

theorem ownedSlots_nodup (slots : Slots) (n : ℕ) : (ownedSlots slots n).Nodup :=
  List.nodup_range.filter _

theorem takeSlots_eq {slots : ℕ → Bool} {source numslots : ℕ} {max : ℤ} (js : List ℕ) :
    ∀ (count : ℕ) (moved : List ReshardItem), takeSlots slots source max numslots js count moved =
      moved ++ ((js.filter slots).take (min (max - count).toNat (numslots - moved.length))).map
        (⟨source, ·⟩) := by
  induction js with
  | nil => simp [takeSlots]
  | cons j js ih =>
    intro count moved
    by_cases hj : slots j
    · by_cases hstop : max ≤ count ∨ numslots ≤ moved.length
      · have h0 : min (max - count).toNat (numslots - moved.length) = 0 := by omega
        rw [takeSlots, if_neg (by simp [hj]), if_pos hstop, h0]
        simp
      · have hk : min (max - count).toNat (numslots - moved.length) =
            min (max - (count + 1 : ℕ)).toNat (numslots - (moved.length + 1)) + 1 := by omega
        rw [takeSlots, if_neg (by simp [hj]), if_neg hstop, ih, hk, List.filter_cons_of_pos hj,
          List.take_succ_cons]
        simp
    · simp [takeSlots, hj, ih]

variable {qsort : (ℕ → ℤ) → List ℕ → List ℕ} {slots : Slots} {slotsCount : ℕ → ℕ} {numslots tot : ℕ}
  {node : ℕ}

/-- A source gives its whole quota if the cap allows it. -/
theorem takeSlots_share {moved : List ReshardItem} (ht : 0 < tot)
    (hcap : moved.length + share numslots tot (slotsCount node) first ≤ numslots) :
    takeSlots (slots node) node (quota numslots tot (slotsCount node) first) numslots
      (List.range managerSlots) 0 moved =
      moved ++ given slots node (share numslots tot (slotsCount node) first) := by
  rw [takeSlots_eq, quota_eq_share ht, given, ownedSlots]
  congr 3
  omega

theorem given_length {k : ℕ} (hc : slotsCount node = (ownedSlots slots node).length)
    (hk : k ≤ slotsCount node) :
    (given slots node k).length = k := by
  rw [given, List.length_map, List.length_take, ← hc]
  exact min_eq_left hk

/-- The entries from the sources after the first one. -/
def laterItems (slots : Slots) (slotsCount : ℕ → ℕ) (numslots tot : ℕ) (nodes : List ℕ) :
    List ReshardItem :=
  nodes.flatMap fun n => given slots n (numslots * slotsCount n / tot)

variable {nodes : List ℕ}

theorem laterItems_length (hn : numslots ≤ tot)
    (hc : ∀ n ∈ nodes, slotsCount n = (ownedSlots slots n).length) :
    (laterItems slots slotsCount numslots tot nodes).length
      = (nodes.map fun n => numslots * slotsCount n / tot).sum := by
  rw [laterItems, List.length_flatMap]
  congr 1
  refine List.map_congr_left fun n hmem => ?_
  have h : numslots * slotsCount n / tot ≤ slotsCount n :=
    Nat.div_le_of_le_mul (Nat.mul_le_mul_right _ hn)
  exact given_length (hc n hmem) h

theorem items_length (hn : numslots ≤ tot)
    (hc : ∀ n ∈ node :: nodes, slotsCount n = (ownedSlots slots n).length) :
    (given slots node (share numslots tot (slotsCount node) true) ++
        laterItems slots slotsCount numslots tot nodes).length =
      share numslots tot (slotsCount node) true + (nodes.map
        fun n => numslots * slotsCount n / tot).sum := by
  rw [List.length_append, given_length (hc node List.mem_cons_self) (share_le hn),
    laterItems_length hn fun n h => hc n (List.mem_cons_of_mem _ h)]

theorem reshardLoop_later (ht : 0 < tot) (hn : numslots ≤ tot) (nodes : List ℕ) :
    ∀ (i : ℕ) (moved : List ReshardItem), i ≠ 0 →
      (∀ n ∈ nodes, slotsCount n = (ownedSlots slots n).length) →
      moved.length + (nodes.map fun n => numslots * slotsCount n / tot).sum ≤ numslots →
      reshardLoop slots slotsCount numslots tot i nodes moved
        = moved ++ laterItems slots slotsCount numslots tot nodes := by
  induction nodes with
  | nil => simp [reshardLoop, laterItems]
  | cons node nodes ih =>
    intro i moved hi hc hcap
    have hshare : share numslots tot (slotsCount node) (i = 0)
        = numslots * slotsCount node / tot := by simp [share, hi]
    have hlen : (given slots node (numslots * slotsCount node / tot)).length
        = numslots * slotsCount node / tot :=
      given_length (hc node List.mem_cons_self) (Nat.div_le_of_le_mul (Nat.mul_le_mul_right _ hn))
    rw [List.map_cons, List.sum_cons] at hcap
    rw [reshardLoop, takeSlots_share ht (by rw [hshare]; omega), hshare,
      ih (i + 1) _ i.succ_ne_zero (fun n hmem => hc n (List.mem_cons_of_mem _ hmem))
        (by rw [List.length_append, hlen]; omega)]
    simp [laterItems]

/-- The table, when `slots_count` counts the slots and no more of them are asked for. -/
theorem computeReshardTable_eq (hq : Sorts qsort)
    (hs : qsort (fun n => -(slotsCount n : ℤ)) sources = node :: nodes)
    (ht : (sources.map slotsCount).sum = tot) (hpos : 0 < tot) (hn : numslots ≤ tot)
    (hc : ∀ n ∈ sources, slotsCount n = (ownedSlots slots n).length) :
    computeReshardTable qsort slots slotsCount sources numslots =
      given slots node (share numslots tot (slotsCount node) true) ++
        laterItems slots slotsCount numslots tot nodes := by
  have hperm : (node :: nodes).Perm sources := hs ▸ hq.perm _ sources
  have hc' : ∀ n ∈ node :: nodes, slotsCount n = (ownedSlots slots n).length :=
    fun n h => hc n (hperm.mem_iff.1 h)
  have hsum : slotsCount node + (nodes.map slotsCount).sum = tot := by
    rw [← ht, ← (hperm.map slotsCount).sum_eq, List.map_cons, List.sum_cons]
  have hle : share numslots tot (slotsCount node) true + (nodes.map
      fun n => numslots * slotsCount n / tot).sum ≤ numslots := by
    simpa [List.map_map, comp_def] using shares_le hpos hsum
  have hlen : (given slots node (share numslots tot (slotsCount node) true)).length
      = share numslots tot (slotsCount node) true :=
    given_length (hc' node List.mem_cons_self) (share_le hn)
  rw [computeReshardTable, ht, hs, reshardLoop, takeSlots_share hpos (by simp; omega),
    reshardLoop_later hpos hn nodes (0 + 1) _ (by omega) (fun n h =>
      hc' n (List.mem_cons_of_mem _ h))]
  · simp
  · simp only [decide_true, List.nil_append, hlen]
    exact hle

/-! ### Slots given twice -/

section Repeats

variable {α β : Type*} [DecidableEq α] {f : α → List β} {l : List α}

theorem nil_of_repeated {a : α} (h : (l.flatMap f).Nodup) (ha : 1 < l.count a) : f a = [] := by
  have hdup : [a, a].Sublist l := List.duplicate_iff_sublist.1
    (List.duplicate_iff_two_le_count.2 ha)
  have hdisj := List.pairwise_iff_forall_sublist.1 (List.nodup_flatMap.1 h).2 hdup
  exact List.eq_nil_iff_forall_not_mem.2 fun x hx => hdisj hx hx

theorem nodup_flatMap_of_repeated (hf : ∀ a ∈ l, (f a).Nodup)
    (hd : ∀ a ∈ l, ∀ b ∈ l, ∀ x ∈ f a, x ∈ f b → a = b) (hr : ∀ a ∈ l, 1 < l.count a → f a = []) :
    (l.flatMap f).Nodup := by
  refine List.nodup_flatMap.2 ⟨hf, List.pairwise_iff_forall_sublist.2 fun {a b} hab x hxa hxb => ?_⟩
  have ha : a ∈ l := hab.subset (by simp)
  have hb : b ∈ l := hab.subset (by simp)
  obtain rfl := hd a ha b hb x hxa hxb
  have hnil := hr a ha (List.duplicate_iff_two_le_count.1 (List.duplicate_iff_sublist.2 hab))
  rw [hnil] at hxa
  exact List.not_mem_nil hxa

end Repeats

/-- The slots of a table. -/
theorem table_slots_nodup_iff
    (hd : ∀ n ∈ node :: nodes, ∀ m ∈ node :: nodes, ∀ j ∈ ownedSlots slots n,
      j ∈ ownedSlots slots m → n = m)
    (hc : ∀ n ∈ node :: nodes, slotsCount n = (ownedSlots slots n).length) (hpos : 0 < tot)
    (hn : numslots ≤ tot) :
    ((given slots node (share numslots tot (slotsCount node) true) ++
        laterItems slots slotsCount numslots tot nodes).map ReshardItem.slot).Nodup ↔
      ∀ n ∈ node :: nodes, 1 < (node :: nodes).count n → numslots * slotsCount n < tot := by
  set floors : ℕ → List ℕ := fun n => (ownedSlots slots n).take (numslots * slotsCount n / tot)
    with hfloors
  have hslots : (laterItems slots slotsCount numslots tot nodes).map ReshardItem.slot
      = nodes.flatMap floors := by
    rw [laterItems, List.map_flatMap]
    simp [hfloors]
  -- a source gives nothing by a share rounded down iff that share is below one
  have hnil : ∀ n ∈ node :: nodes, floors n = [] ↔ numslots * slotsCount n < tot := by
    intro n hmem
    have hle : numslots * slotsCount n / tot ≤ slotsCount n :=
      Nat.div_le_of_le_mul (Nat.mul_le_mul_right _ hn)
    rw [hfloors, ← List.length_eq_zero_iff, List.length_take, ← hc n hmem, min_eq_left hle,
      Nat.div_eq_zero_iff]
    omega
  have hmem : ∀ n x, x ∈ floors n → x ∈ ownedSlots slots n := fun n x hx => List.mem_of_mem_take hx
  rw [List.map_append, given_slots, hslots]
  constructor
  · intro h n hin hcount
    -- the first source gives at least what its share rounded down is
    have hsub : ((node :: nodes).flatMap floors).Sublist
        ((ownedSlots slots node).take (share numslots tot (slotsCount node) true) ++
          nodes.flatMap floors) := by
      rw [List.flatMap_cons]
      refine List.Sublist.append (List.take_sublist_take_left ?_) (List.Sublist.refl _)
      exact Nat.le_add_right _ _
    exact (hnil n hin).1 (nil_of_repeated (h.sublist hsub) hcount)
  · intro h
    refine List.nodup_append'.2 ⟨(ownedSlots_nodup slots node).sublist
      (List.take_sublist _ _), ?_, ?_⟩
    · refine nodup_flatMap_of_repeated (fun n _ => (ownedSlots_nodup slots n).sublist
        (List.take_sublist _ _)) ?_ ?_
      · intro n hin m him x hx hy
        exact hd n (List.mem_cons_of_mem _ hin) m (List.mem_cons_of_mem _ him) x (hmem n x hx)
          (hmem m x hy)
      · intro n hin hcount
        have hin' := List.mem_cons_of_mem node hin
        refine (hnil n hin').2 (h n hin' (hcount.trans_le ?_))
        exact List.count_le_count_cons
    · intro x hx hy
      obtain ⟨n, hin, hxn⟩ := List.mem_flatMap.1 hy
      obtain rfl := hd node List.mem_cons_self n (List.mem_cons_of_mem _ hin) x
        (List.mem_of_mem_take hx) (hmem n x hxn)
      have hcount : 1 < (node :: nodes).count node := by
        rw [List.count_cons_self]
        exact Nat.succ_lt_succ (List.count_pos_iff.2 hin)
      rw [(hnil node List.mem_cons_self).2 (h node List.mem_cons_self hcount)] at hxn
      exact List.not_mem_nil hxn

/-! ### The plan -/

/-- A plan that moves what was asked. -/
structure ExactPlan (slots : Slots) (numslots : ℕ) (table : List ReshardItem) : Prop where
  length : table.length = numslots
  nodup : (table.map ReshardItem.slot).Nodup
  owned : ∀ item ∈ table, item.slot ∈ ownedSlots slots item.source

/-- The shares add up, though all but the largest one are rounded down. -/
def SharesAddUp (slotsCount : ℕ → ℕ) (sources : List ℕ) (numslots : ℕ) : Prop :=
  let tot := (sources.map slotsCount).sum
  let largest := (sources.map slotsCount).foldr max 0
  numslots ≤ (sources.map fun n => numslots * slotsCount n / tot).sum + if numslots * largest % tot
    = 0 then 0 else 1

/-- The sources given twice have a share below one slot. -/
def RepeatsGiveNothing (slotsCount : ℕ → ℕ) (sources : List ℕ) (numslots : ℕ) : Prop :=
  ∀ n ∈ sources, 1 < sources.count n → numslots * slotsCount n < (sources.map slotsCount).sum

/-- The first of the sorted sources is a largest one. -/
theorem sorted_head_largest (hq : Sorts qsort)
    (hs : qsort (fun n => -(slotsCount n : ℤ)) sources = node :: nodes) :
    (sources.map slotsCount).foldr max 0 = slotsCount node := by
  have hperm : (node :: nodes).Perm sources := hs ▸ hq.perm _ sources
  have hsorted : (node :: nodes).Pairwise fun a b => -(slotsCount a : ℤ) ≤ -(slotsCount b : ℤ) :=
    hs ▸ hq.sorted _ sources
  have hle : ∀ n ∈ nodes, slotsCount n ≤ slotsCount node := by
    intro n hn
    have := List.rel_of_pairwise_cons hsorted hn
    omega
  have hmax : (nodes.map slotsCount).foldr max 0 ≤ slotsCount node := by
    refine List.max_le_of_forall_le _ _ fun x hx => ?_
    obtain ⟨n, hn, rfl⟩ := List.mem_map.1 hx
    exact hle n hn
  have hfold : ((node :: nodes).map slotsCount).foldr max 0
      = (sources.map slotsCount).foldr max 0 :=
    (hperm.map slotsCount).foldr_eq 0
  rw [← hfold, List.map_cons, List.foldr_cons, max_eq_left hmax]

theorem computeReshardTable_exact_iff (hq : Sorts qsort)
    (hd : ∀ n ∈ sources, ∀ m ∈ sources, ∀ j ∈ ownedSlots slots n, j ∈ ownedSlots slots m → n = m)
    (hc : ∀ n ∈ sources, slotsCount n = (ownedSlots slots n).length)
    (h1 : 1 ≤ numslots) (hn : numslots ≤ (sources.map slotsCount).sum) :
    ExactPlan slots numslots (computeReshardTable qsort slots slotsCount sources numslots) ↔
      SharesAddUp slotsCount sources numslots ∧ RepeatsGiveNothing slotsCount sources numslots := by
  obtain ⟨tot, ht⟩ : ∃ tot, (sources.map slotsCount).sum = tot := ⟨_, rfl⟩
  have hpos : 0 < tot := by omega
  rw [ht] at hn
  rcases hs : qsort (fun n => -(slotsCount n : ℤ)) sources with _ | ⟨node, nodes⟩
  · have : sources = [] := (hs ▸ hq.perm _ sources).symm.eq_nil
    subst this
    simp at ht
    omega
  have hperm : (node :: nodes).Perm sources := hs ▸ hq.perm _ sources
  have hmem : ∀ n, n ∈ node :: nodes → n ∈ sources := fun n => hperm.mem_iff.1
  have hsum : slotsCount node + (nodes.map slotsCount).sum = tot := by
    rw [← ht, ← (hperm.map slotsCount).sum_eq, List.map_cons, List.sum_cons]
  have hle : share numslots tot (slotsCount node) true + (nodes.map
      fun n => numslots * slotsCount n / tot).sum ≤ numslots := by
    simpa [List.map_map, comp_def] using shares_le hpos hsum
  have hlen := items_length hn fun n h => hc n (hmem n h)
  have hadd : SharesAddUp slotsCount sources numslots ↔
      numslots ≤ share numslots tot (slotsCount node)
        true + (nodes.map fun n => numslots * slotsCount n / tot).sum := by
    rw [SharesAddUp, sorted_head_largest hq hs, ht,
      ← (hperm.map fun n => numslots * slotsCount n / tot).sum_eq,
      List.map_cons, List.sum_cons, share]
    by_cases hm : numslots * slotsCount node % tot = 0
    · simp [hm]
    · simp only [hm, if_false, ne_eq, not_false_eq_true, and_self, if_true]
      omega
  have hrep : RepeatsGiveNothing slotsCount sources numslots ↔
      ∀ n ∈ node :: nodes, 1 < (node :: nodes).count n → numslots * slotsCount n < tot := by
    rw [RepeatsGiveNothing, ht]
    simp only [hperm.mem_iff, hperm.count_eq]
  have hnodup := table_slots_nodup_iff (fun n h m h' => hd n (hmem n h) m (hmem m h'))
    (fun n h => hc n (hmem n h)) hpos hn
  rw [computeReshardTable_eq hq hs ht hpos hn hc, hadd, hrep, ← hnodup, ← hlen]
  constructor
  · intro h
    exact ⟨h.length.ge, h.nodup⟩
  · rintro ⟨hge, hnd⟩
    refine ⟨le_antisymm (hlen ▸ hle) hge, hnd, fun item hitem => ?_⟩
    rcases List.mem_append.1 hitem with hg | hg
    · obtain ⟨rfl, h⟩ := mem_given hg
      exact h
    · obtain ⟨n, -, hg⟩ := List.mem_flatMap.1 hg
      obtain ⟨rfl, h⟩ := mem_given hg
      exact h

/-- For the sources that are accepted the plan moves exactly what was asked iff the shares add
up and no source that matters is given twice. -/
theorem reshardPlan_exact_iff {c : Cluster} {receiver : Bytes} {origin : Origin} {sources : List ℕ}
    (hq : Sorts qsort) (hs : acceptedSources c receiver origin = some sources)
    (hd : ∀ n ∈ sources, ∀ m ∈ sources, ∀ j ∈ ownedSlots slots n, j ∈ ownedSlots slots m → n = m)
    (hc : ∀ n ∈ sources, slotsCount n = (ownedSlots slots n).length)
    (h1 : 1 ≤ numslots) (hn : numslots ≤ (sources.map slotsCount).sum) :
    (∃ table, reshardPlan c qsort slots slotsCount receiver origin numslots = some table ∧
      ExactPlan slots numslots table) ↔
      SharesAddUp slotsCount sources numslots ∧ RepeatsGiveNothing slotsCount sources numslots := by
  rw [← computeReshardTable_exact_iff hq hd hc h1 hn]
  simp [reshardPlan, hs]

/-- An order of the sources that `qsort` may give. -/
def insertionOrder (key : ℕ → ℤ) (nodes : List ℕ) : List ℕ :=
  nodes.insertionSort fun a b => key a ≤ key b

theorem insertionOrder_sorts : Sorts insertionOrder where
  perm key nodes := List.perm_insertionSort _ nodes
  sorted key nodes := by
    have : Std.Total fun a b : ℕ => key a ≤ key b := ⟨fun a b => le_total (key a) (key b)⟩
    have : IsTrans ℕ fun a b => key a ≤ key b := ⟨fun a b c => le_trans⟩
    exact List.pairwise_insertionSort _ nodes

/-- Four masters, of which the first three own ten slots each. -/
def tensCluster : Cluster :=
  ⟨4, fun n => ⟨text (toString n), [], 0, false, none, fun _ => false, [], []⟩⟩

def tens : Slots := fun n j => n < 3 ∧ j / 10 = n

theorem tens_disjoint (n m j : ℕ) (hn : tens n j) (hm : tens m j) : n = m := by
  simp only [tens, decide_eq_true_eq] at hn hm
  omega

theorem ownedSlots_tens {n : ℕ} (hn : n < 3) :
    ownedSlots tens n = (List.range 30).filter (tens n) := by
  have hrange : List.range managerSlots = List.range 30 ++ (List.range 16354).map (30 + ·) :=
    @List.range_add 30 16354
  have hrest : ((List.range 16354).map (30 + ·)).filter (tens n) = [] := by
    refine List.filter_eq_nil_iff.2 fun j hj => ?_
    obtain ⟨k, -, rfl⟩ := List.mem_map.1 hj
    simp only [tens, decide_eq_true_eq]
    omega
  rw [ownedSlots, hrange, List.filter_append, hrest, List.append_nil]

theorem tens_count (n : ℕ) (hn : n < 3) : 10 = (ownedSlots tens n).length := by
  rw [ownedSlots_tens hn]
  interval_cases n <;> decide

/-- Five slots from three sources of ten: the quotas are 2, 1 and 1. -/
theorem equal_sources_fall_short :
    acceptedSources tensCluster (text "3") (.typed [text "0", text "1", text "2", text "done"])
      = some [0, 1, 2] ∧
    (∀ n < 3, 10 = (ownedSlots tens n).length) ∧ (∀ n m j, tens n j → tens m j → n = m) ∧
    ∃ table, reshardPlan tensCluster insertionOrder tens (fun _ => 10) (text "3")
      (.typed [text "0", text "1", text "2", text "done"]) 5 = some table ∧ table.length = 4 := by
  have hs : acceptedSources tensCluster (text "3") (.typed [text "0", text "1", text "2",
      text "done"]) = some [0, 1, 2] := by
    decide +kernel
  have hc : ∀ n ∈ [0, 1, 2], 10 = (ownedSlots tens n).length :=
    fun n hn => tens_count n (by simp at hn; omega)
  have htable : computeReshardTable insertionOrder tens (fun _ => 10) [0, 1, 2] 5 =
      given tens 0 (share 5 30 10 true) ++ laterItems tens (fun _ => 10) 5 30 [1, 2] :=
    computeReshardTable_eq insertionOrder_sorts (by decide) rfl (by decide) (by decide) hc
  have hlen : (given tens 0 (share 5 30 10 true) ++ laterItems tens (fun _ => 10)
      5 30 [1, 2]).length = 4 :=
    (items_length (by decide) hc).trans (by decide)
  exact ⟨hs, tens_count, tens_disjoint, _, by rw [reshardPlan, hs, Option.map_some, htable], hlen⟩

theorem reshardPlan_exact_iff_tens :
    (∃ table, reshardPlan tensCluster insertionOrder tens (fun _ => 10) (text "3")
        (.given (text "0,1,0,2")) 2 = some table ∧ ExactPlan tens 2 table) ↔
      SharesAddUp (fun _ => 10) [0, 1, 0, 2] 2 ∧
      RepeatsGiveNothing (fun _ => 10) [0, 1, 0, 2] 2 := by
  refine reshardPlan_exact_iff insertionOrder_sorts (by decide +kernel) ?_ ?_
    (by decide) (by decide)
  · intro n _ m _ j hn hm
    exact tens_disjoint n m j (List.mem_filter.1 hn).2 (List.mem_filter.1 hm).2
  · intro n hn
    exact tens_count n (by simp at hn; omega)

end ClusterManager
