/-
What the layout of `redis-cli --cluster create` is.

* `interleave_perm` — the interleaved array holds every node once, so that the masters and
  the replicas are all nodes;
* `slots_spec` — master `i` of `m` gets the slots from `bound m i` up to `bound m (i + 1)`,
  which rise strictly from zero to the number of slots;
* `assignOne_spec` — the search over the window takes one of the replicas that are left out
  of it, and loses none;
* `assignReplicas_spec` — the first pass gives every master its replicas, and the second one
  more to as many masters as there are replicas left;
* `layout_complete_iff` — so the layout is complete if and only if the replicas left over
  are at most as many as the masters.
-/
import DecomposeRedis.ClusterCreate
import Mathlib.Data.List.Perm.Basic
import Mathlib.Data.List.Forall2

namespace ClusterCreate

open Function

/-! ### Interleaving -/

/-- An array that still holds some nodes. -/
structure NodeArray.Holds (n : ℕ) (a : NodeArray) (l : List ℕ) : Prop where
  length : a.alloc.length = n
  len : a.base + a.len = n
  count : a.count = l.length
  nodes : ∃ front back, a.alloc = front ++ (l.map some ++ back) ∧ front.length = a.base

variable {n : ℕ} {a : NodeArray} {l : List ℕ} {p : ℕ} {ls : List (List ℕ)} {cells : ℕ → Option ℕ}
  {groups : Groups}

theorem NodeArray.holds_init (n : ℕ) : NodeArray.Holds n (.init n) [] :=
  ⟨List.length_replicate, Nat.zero_add n, rfl, [], List.replicate n none, rfl, rfl⟩

theorem NodeArray.Holds.add (h : a.Holds n l) (hl : l.length < n) (hbase : a.base = 0) :
    ∃ a', a.add p = some a' ∧ a'.Holds n (l ++ [p]) ∧ a'.base = 0 := by
  have hlength := h.length
  have hlen := h.len
  have hcount := h.count
  obtain ⟨front, back, halloc, hfront⟩ := h.nodes
  rw [NodeArray.add, if_pos (by omega)]
  refine ⟨_, rfl, ⟨by rw [List.length_set]; exact hlength, hlen, by simp [hcount], ?_⟩, hbase⟩
  obtain rfl : front = [] := List.eq_nil_of_length_eq_zero (hfront.trans hbase)
  obtain ⟨c, back, rfl⟩ : ∃ c back', back = c :: back' := by
    cases back with
    | nil =>
      simp [halloc] at hlength
      omega
    | cons c back => exact ⟨c, back, rfl⟩
  refine ⟨[], back, ?_, hfront⟩
  show a.alloc.set (a.base + a.count) (some p) = _
  rw [hbase, hcount, halloc, Nat.zero_add, List.nil_append, List.nil_append,
    List.set_append_right _ _ (by simp)]
  simp

theorem NodeArray.Holds.shift {q : ℕ} (h : a.Holds n (q :: l)) :
    ∃ a', a.shift = some (some q, a') ∧ a'.Holds n l := by
  have hlength := h.length
  have hlen := h.len
  have hcount := h.count
  obtain ⟨front, back, halloc, hfront⟩ := h.nodes
  have hpos : a.base < n := by
    rw [← hlength, halloc, ← hfront]
    simp
  have hget : a.alloc[a.base]? = some (some q) := by
    rw [halloc, List.getElem?_append_right (Nat.le_of_eq hfront), hfront, Nat.sub_self]
    rfl
  rw [NodeArray.shift, if_pos (by omega), hget]
  refine ⟨_, rfl, hlength, by show a.base + 1 + (a.len - 1) = n; omega, ?_, front ++ [some q],
    back, ?_, ?_⟩
  · show a.count - 1 = l.length
    rw [hcount, List.length_cons, Nat.add_sub_cancel]
  · rw [halloc]
    simp
  · rw [List.length_append, hfront]
    rfl

/-- The arrays of all addresses. -/
def GroupsHold (n : ℕ) (groups : Groups) (ls : List (List ℕ)) : Prop :=
  List.Forall₂ (fun g l => NodeArray.Holds n g.2 l) groups ls

/-- A node is added to its address. -/
theorem groupByIp_spec (ip : Bytes) (h : GroupsHold n groups ls)
    (hbase : ∀ g ∈ groups, g.2.base = 0) (hlen : ls.flatten.length < n) :
    ∃ groups' ls', groupByIp n ip p groups = some groups' ∧ GroupsHold n groups' ls' ∧
      (∀ g ∈ groups', g.2.base = 0) ∧ ls'.flatten.Perm (p :: ls.flatten) := by
  induction h with
  | nil =>
    obtain ⟨a, hadd, ha, hbase⟩ := (NodeArray.holds_init n).add (p := p) (by simpa using hlen) rfl
    refine ⟨[(ip, a)], [[p]], ?_, .cons ha .nil, by simpa using hbase, .refl _⟩
    rw [groupByIp, hadd]
    rfl
  | cons hgl htail ih =>
    rename_i g l groups ls
    obtain ⟨ip', a⟩ := g
    rw [List.flatten_cons, List.length_append] at hlen
    rw [groupByIp]
    have hrest : ∀ g ∈ groups, g.2.base = 0 := fun g hg => hbase g (List.mem_cons_of_mem _ hg)
    split_ifs with hip
    · obtain ⟨a', hadd, ha', hbase'⟩ := hgl.add (p := p) (by omega)
        (hbase (ip', a) List.mem_cons_self)
      refine ⟨(ip', a') :: groups, (l ++ [p]) :: ls, by rw [hadd]; rfl, .cons ha' htail,
        List.forall_mem_cons.mpr ⟨hbase', hrest⟩, ?_⟩
      rw [List.flatten_cons, List.flatten_cons, List.append_assoc]
      exact List.perm_middle
    · obtain ⟨groups', ls', hgroup, hhold, hbase', hperm⟩ := ih hrest (by omega)
      refine ⟨(ip', a) :: groups', l :: ls', by rw [hgroup]; rfl, .cons hgl hhold,
        List.forall_mem_cons.mpr ⟨hbase _ List.mem_cons_self, hbase'⟩, ?_⟩
      exact (hperm.append_left l).trans List.perm_middle

theorem groupNodes_spec {nodes : List NodeInfo} (h : GroupsHold n groups ls)
    (hbase : ∀ g ∈ groups, g.2.base = 0) (hperm : ls.flatten.Perm (List.range p))
    (hn : p + nodes.length = n) :
    ∃ groups' ls', groupNodes n p nodes groups = some groups' ∧ GroupsHold n groups' ls' ∧
      ls'.flatten.Perm (List.range n) := by
  induction nodes generalizing p groups ls with
  | nil =>
    obtain rfl : p = n := hn
    exact ⟨groups, ls, rfl, h, hperm⟩
  | cons x nodes ih =>
    rw [List.length_cons] at hn
    have hlen : ls.flatten.length < n := by
      rw [hperm.length_eq, List.length_range]
      omega
    obtain ⟨groups₁, ls₁, hgroup, hhold, hbase₁, hperm₁⟩ :=
      groupByIp_spec (p := p) x.ip h hbase hlen
    have hperm₂ : ls₁.flatten.Perm (List.range (p + 1)) := by
      rw [List.range_succ]
      exact (hperm₁.trans (hperm.cons p)).trans (List.perm_append_singleton p (List.range p)).symm
    rw [groupNodes, hgroup]
    exact ih hhold hbase₁ hperm₂ (by omega)

/-- A round takes a node of each array that has one. -/
theorem interleaveRound_spec (h : GroupsHold n groups ls) :
    ∃ groups' ls', ∃ out : List ℕ, interleaveRound groups = some (groups', out.map some) ∧
      GroupsHold n groups' ls' ∧
      (out ++ ls'.flatten).Perm ls.flatten ∧ (ls.flatten ≠ [] → out ≠ []) := by
  induction h with
  | nil => exact ⟨[], [], [], rfl, .nil, .refl _, fun h => absurd rfl h⟩
  | cons hgl htail ih =>
    rename_i g l groups ls
    obtain ⟨ip, a⟩ := g
    obtain ⟨groups', ls', out, hround, hhold, hperm, hne⟩ := ih
    rw [interleaveRound]
    cases l with
    | nil =>
      have hcount : a.count = 0 := hgl.count
      rw [if_neg (by omega), hround]
      exact ⟨(ip, a) :: groups', [] :: ls', out, rfl, .cons hgl hhold, hperm, hne⟩
    | cons q l =>
      have hcount : a.count = (q :: l).length := hgl.count
      obtain ⟨a', hshift, ha'⟩ := hgl.shift
      rw [if_pos (by rw [hcount]; exact Nat.succ_pos _), hshift, Option.bind_some, hround]
      refine ⟨(ip, a') :: groups', l :: ls', q :: out, rfl, .cons ha' hhold, ?_, fun _ =>
        List.cons_ne_nil _ _⟩
      rw [List.flatten_cons, List.flatten_cons, List.cons_append, List.cons_append, List.perm_cons]
      refine List.Perm.trans ?_ (hperm.append_left l)
      rw [← List.append_assoc, ← List.append_assoc]
      exact List.perm_append_comm.append_right _

theorem interleaveLoop_spec {out : List ℕ} {fuel : ℕ}
    (h : GroupsHold n groups ls) (hperm : (out ++ ls.flatten).Perm (List.range n))
    (hfuel : ls.flatten.length ≤ fuel) :
    ∃ out' : List ℕ, interleaveLoop n fuel groups (out.map some) = some (out'.map some) ∧
      out'.Perm (List.range n) := by
  induction fuel generalizing groups ls out with
  | zero =>
    have hnil : ls.flatten = [] := List.eq_nil_of_length_eq_zero (Nat.le_zero.mp hfuel)
    rw [hnil, List.append_nil] at hperm
    have hlen := hperm.length_eq
    rw [interleaveLoop.eq_def]
    exact ⟨out, by simp [hlen], hperm⟩
  | succ fuel ih =>
    have hlen := hperm.length_eq
    rw [List.length_range, List.length_append] at hlen
    rw [interleaveLoop.eq_def]
    by_cases hdone : n ≤ (out.map some).length
    · rw [List.length_map] at hdone
      have hnil : ls.flatten = [] := List.eq_nil_of_length_eq_zero (by omega)
      rw [hnil, List.append_nil] at hperm
      exact ⟨out, by simp [hdone], hperm⟩
    · obtain ⟨groups', ls', new, hround, hhold, hperm', hne⟩ := interleaveRound_spec h
      rw [List.length_map] at hdone
      have hnew : new ≠ [] := hne fun hnil => by
        rw [hnil] at hlen
        simp at hlen
        omega
      have hpos := List.length_pos_of_ne_nil hnew
      have hlen' := hperm'.length_eq
      rw [List.length_append] at hlen'
      have hperm₂ : ((out ++ new) ++ ls'.flatten).Perm (List.range n) := by
        rw [List.append_assoc]
        exact (hperm'.append_left out).trans hperm
      obtain ⟨out', hloop, hout'⟩ := ih hhold hperm₂ (by omega)
      refine ⟨out', ?_, hout'⟩
      simp only [List.length_map]
      rw [if_neg hdone, hround, Option.bind_some, ← List.map_append, hloop]

/-- **Every node is in the interleaved array once.** -/
theorem interleave_perm (nodes : List NodeInfo) :
    ∃ groups, ∃ out : List ℕ, groupNodes nodes.length 0 nodes [] = some groups ∧
      interleaveLoop nodes.length nodes.length groups [] = some (out.map some) ∧
      out.Perm (List.range nodes.length) := by
  obtain ⟨groups, ls, hgroup, hhold, hperm⟩ :=
    @groupNodes_spec nodes.length 0 [] [] nodes .nil (fun _ hg => nomatch hg) (.refl _)
      (Nat.zero_add _)
  have hlen := hperm.length_eq
  rw [List.length_range] at hlen
  obtain ⟨out, hloop, hout⟩ := @interleaveLoop_spec nodes.length ls groups [] nodes.length hhold
    hperm (Nat.le_of_eq hlen)
  exact ⟨groups, out, hgroup, hloop, hout⟩

/-! ### Slots -/

/-- The first slot behind those of the first `i` of `m` masters. -/
def bound (m i : ℕ) : ℕ := (2 * i * managerSlots + m) / (2 * m)

variable {m i : ℕ}

theorem bound_zero (hm : 0 < m) : bound m 0 = 0 := by
  exact Nat.div_eq_of_lt (by omega)

theorem bound_last (hm : 0 < m) : bound m m = managerSlots := by
  have hsplit : 2 * m * managerSlots + m = m + managerSlots * (2 * m) := by ring
  rw [bound, hsplit, Nat.add_mul_div_right _ _ (by omega), Nat.div_eq_of_lt (by omega),
    Nat.zero_add]

/-- There are at least as many slots as masters, so that the bounds rise. -/
theorem bound_lt (hm : 0 < m) (hslots : m ≤ managerSlots) : bound m i < bound m (i + 1) := by
  have hstep : 2 * i * managerSlots + m + 2 * m ≤ 2 * (i + 1) * managerSlots + m := by
    have hexpand : 2 * (i + 1) * managerSlots = 2 * i * managerSlots + 2 * managerSlots := by ring
    omega
  calc bound m i < bound m i + 1 := Nat.lt_succ_self _
    _ = (2 * i * managerSlots + m + 2 * m) / (2 * m) := by
        rw [Nat.add_div_right _ (by omega), bound]
    _ ≤ bound m (i + 1) := Nat.div_le_div_right hstep

theorem bound_mono (hm : 0 < m) (hslots : m ≤ managerSlots) {j : ℕ} (h : i ≤ j) :
    bound m i ≤ bound m j :=
  monotone_nat_of_le_succ (f := bound m) (fun k => Nat.le_of_lt (@bound_lt m k hm hslots)) h

/-- The rounding of the source. -/
theorem lround_eq (hm : 0 < m) (hslots : m ≤ managerSlots) :
    lround ((i : ℚ) * (managerSlots / m) + managerSlots / m - 1) = (bound m (i + 1) : ℤ) - 1 := by
  have hm' : (0 : ℚ) < m := by exact_mod_cast hm
  have hslots' : (m : ℚ) ≤ managerSlots := by exact_mod_cast hslots
  have hone : (1 : ℚ) ≤ managerSlots / m := (one_le_div hm').mpr hslots'
  have hi : (0 : ℚ) ≤ (i : ℚ) * (managerSlots / m) := by positivity
  rw [lround, if_pos (by linarith), Int.floor_eq_iff]
  -- the division with remainder behind the bound
  obtain ⟨b, hb⟩ : ∃ b, b = bound m (i + 1) := ⟨_, rfl⟩
  have hlow : b * (2 * m) ≤ 2 * (i + 1) * managerSlots + m := by
    rw [hb]
    exact Nat.div_mul_le_self _ _
  have hhigh : 2 * (i + 1) * managerSlots + m < (b + 1) * (2 * m) := by
    rw [hb, bound, mul_comm _ (2 * m)]
    exact Nat.lt_mul_div_succ _ (by omega)
  rw [← hb]
  have hlow' : (b : ℚ) * (2 * m) ≤ 2 * (i + 1) * managerSlots + m := by exact_mod_cast hlow
  have hhigh' : 2 * ((i : ℚ) + 1) * managerSlots + m < (b + 1) * (2 * m) := by exact_mod_cast hhigh
  have hx : (i : ℚ) * (managerSlots / m) + managerSlots / m - 1 + 1 / 2 =
      (2 * (i + 1) * managerSlots + m) / (2 * m) - 1 := by
    field_simp
    ring
  push_cast
  constructor
  · have hle := (le_div_iff₀ (by linarith : (0 : ℚ) < 2 * m)).mpr hlow'
    linarith
  · have hlt := (div_lt_iff₀ (by linarith : (0 : ℚ) < 2 * m)).mpr hhigh'
    linarith

theorem fillSlots_spec (master : ℕ) {k j : ℕ} (st : SlotTable) (h : j + k ≤ managerSlots) :
    fillSlots master k j st =
      some ⟨update st.slots master fun x => decide (j ≤ x ∧ x < j + k) || st.slots master x,
        update st.slotsCount master (st.slotsCount master + k)⟩ := by
  induction k generalizing j st with
  | zero =>
    rw [fillSlots]
    have hslots : (fun x => decide (j ≤ x ∧ x < j + 0) || st.slots master x) = st.slots master := by
      funext x
      have hnot : ¬ (j ≤ x ∧ x < j + 0) := by omega
      rw [decide_eq_false hnot, Bool.false_or]
    rw [hslots, Nat.add_zero, update_eq_self, update_eq_self]
  | succ k ih =>
    rw [fillSlots, if_pos (by omega), ih _ (by omega)]
    simp only [update_self, update_idem]
    congr 2
    · congr 1
      funext x
      by_cases hx : x = j
      · subst hx
        simp
      · rw [update_of_ne hx]
        congr 1
        rw [decide_eq_decide]
        omega
    · congr 1
      omega

/-- The masters so far have their slots, and no other node has any. -/
structure Filled (m : ℕ) (masters : ℕ → Option ℕ) (i : ℕ) (st : SlotTable) : Prop where
  slots : ∀ k < i, ∀ q, masters k = some q → ∀ x, st.slots q x = decide (bound m k ≤ x ∧
    x < bound m (k + 1))
  count : ∀ k < i, ∀ q, masters k = some q → st.slotsCount q = bound m (k + 1) - bound m k
  others : ∀ q, (∀ k < i, masters k ≠ some q) → ∀ x, st.slots q x = false

theorem slotsLoop_spec {masters : ℕ → Option ℕ} {left : ℕ} {st : SlotTable} (hm : 0 < m)
    (hslots : m ≤ managerSlots) (hsome : ∀ k < m, (masters k).isSome)
    (hinj : ∀ k k' q, masters k = some q → masters k' = some q → k = k') (hleft : i + left = m)
    (h : Filled m masters i st) :
    ∃ st', slotsLoop m masters left i (bound m i) (i * (managerSlots / m)) st = some st' ∧
      Filled m masters m st' := by
  induction left generalizing i st with
  | zero =>
    obtain rfl : i = m := hleft
    exact ⟨st, rfl, h⟩
  | succ left ih =>
    obtain ⟨q, hq⟩ := Option.isSome_iff_exists.mp (hsome i (by omega))
    have hlt := @bound_lt m i hm hslots
    have hle : bound m (i + 1) ≤ managerSlots := by
      rw [← bound_last hm]
      exact bound_mono hm hslots (by omega)
    -- neither of the corrections changes the last slot
    have hlast : (if (managerSlots : ℤ) < (bound m (i + 1) : ℤ) - 1 ∨
        i + 1 = m then (managerSlots : ℤ) - 1
        else (bound m (i + 1) : ℤ) - 1) = (bound m (i + 1) : ℤ) - 1 := by
      split_ifs with hc
      · rcases hc with hc | hc
        · omega
        · rw [hc, bound_last hm]
      · rfl
    have hcursor : ((i : ℚ) * (managerSlots / m) + managerSlots / m)
        = ((i + 1 : ℕ) : ℚ) * (managerSlots / m) := by
      push_cast
      ring
    rw [slotsLoop, hq, Option.bind_some]
    dsimp only
    rw [lround_eq hm hslots, hlast, if_neg (by omega), hcursor]
    have hwidth : ((bound m (i + 1) : ℤ) - 1 + 1 - (bound m i : ℤ)).toNat
        = bound m (i + 1) - bound m i := by omega
    have hnext : (bound m (i + 1) : ℤ) - 1 + 1 = (bound m (i + 1) : ℕ) := by omega
    rw [hwidth, hnext, Int.toNat_natCast, fillSlots_spec q _ (by omega), Option.bind_some]
    refine ih (by omega) ⟨fun k hk p hp x => ?_, fun k hk p hp => ?_, fun p hp x => ?_⟩
    · by_cases hki : k = i
      · subst hki
        obtain rfl := Option.some.inj (hq.symm.trans hp)
        have hold := h.others q (fun k' hk' heq => absurd (hinj k' k q heq hq) (by omega)) x
        have hsum : bound m k + (bound m (k + 1) - bound m k) = bound m (k + 1) := by omega
        simp only [update_self, hold, Bool.or_false, hsum]
      · have hpq : p ≠ q := fun heq => hki (hinj k i p hp (heq ▸ hq))
        simp only [update_of_ne hpq]
        exact h.slots k (by omega) p hp x
    · by_cases hki : k = i
      · subst hki
        obtain rfl := Option.some.inj (hq.symm.trans hp)
        simp only [update_self, Nat.zero_add]
      · have hpq : p ≠ q := fun heq => hki (hinj k i p hp (heq ▸ hq))
        simp only [update_of_ne hpq]
        exact h.count k (by omega) p hp
    · have hpq : p ≠ q := fun heq => hp i (by omega) (heq ▸ hq)
      simp only [update_of_ne hpq]
      exact h.others p (fun k hk => hp k (by omega)) x

theorem slots_spec {masters : ℕ → Option ℕ} (hm : 0 < m) (hslots : m ≤ managerSlots)
    (hsome : ∀ k < m, (masters k).isSome)
    (hinj : ∀ k k' q, masters k = some q → masters k' = some q → k = k') :
    ∃ st, slotsLoop m masters m 0 0 0 ⟨fun _ _ => false, fun _ => 0⟩ = some st ∧
      Filled m masters m st := by
  have hloop := @slotsLoop_spec m 0 masters m ⟨fun _ _ => false,
    fun _ => 0⟩ hm hslots hsome hinj (Nat.zero_add m)
    ⟨fun k hk => absurd hk (Nat.not_lt_zero k), fun k hk => absurd hk (Nat.not_lt_zero k),
      fun _ _ _ => rfl⟩
  have hcursor : ((0 : ℕ) : ℚ) * (managerSlots / m) = 0 := by rw [Nat.cast_zero, zero_mul]
  rwa [bound_zero hm, hcursor] at hloop

/-! ### The window of replicas -/

theorem rotateLoop_spec (base : ℕ) {left i : ℕ} (cells : ℕ → Option ℕ) (j : ℕ) :
    rotateLoop base left i cells j = if base + i ≤ j ∧ j < base + i + left then
      cells (j + 1) else cells j := by
  induction left generalizing i cells with
  | zero => rw [rotateLoop, if_neg (by omega)]
  | succ left ih =>
    rw [rotateLoop, ih]
    by_cases hj : j = base + i
    · subst hj
      rw [if_neg (by omega), update_self, if_pos (by omega)]
    · rw [update_of_ne hj]
      split_ifs
      · exact update_of_ne (by omega) _ _
      · omega
      · omega
      · rfl

/-- The rotation moves the first replica behind the others. -/
theorem rotate_live (cells : ℕ → Option ℕ) (base k : ℕ) :
    ((List.range' base (k + 1)).filterMap (rotate cells base (k + 1))).Perm
      ((List.range' base (k + 1)).filterMap cells) := by
  have hfront : ∀ j ∈ List.range' base k, rotate cells base (k + 1) j = cells (j + 1) := by
    intro j hj
    obtain ⟨hlow, hhigh⟩ := List.mem_range'_1.mp hj
    rw [rotate, update_of_ne (by omega), rotateLoop_spec, if_pos (by omega)]
  have hlast : rotate cells base (k + 1) (base + k) = cells base := by
    rw [rotate, show base + (k + 1) - 1 = base + k by omega, update_self]
  have hshift : (List.range' base k).filterMap (rotate cells base (k + 1)) =
      (List.range' (base + 1) k).filterMap cells := by
    have hmap : List.range' (base + 1) k = (List.range' base k).map (1 + ·) := by
      rw [List.map_add_range', Nat.add_comm]
    rw [List.filterMap_congr hfront, hmap, List.filterMap_map]
    exact List.filterMap_congr fun j _ => by rw [comp_apply, Nat.add_comm]
  have hone : [base + k].filterMap (rotate cells base (k + 1)) = [base].filterMap cells := by
    simp only [List.filterMap_cons, hlast]
    rfl
  have hcells : (List.range' base (k + 1)).filterMap cells =
      [base].filterMap cells ++ (List.range' (base + 1) k).filterMap cells := by
    rw [List.range'_succ, ← List.filterMap_append]
    rfl
  rw [hcells, List.range'_1_concat, List.filterMap_append, hshift, hone]
  exact List.perm_append_comm

variable {nodes : List NodeInfo} {size : ℕ} {w w' : Work} {rest others : List ℕ}

/-- The window holds the replicas that are left, and stays within the allocation. -/
structure Ready (nodes : List NodeInfo) (size m : ℕ) (w : Work) (rest : List ℕ) : Prop where
  live : ((List.range' w.base w.len).filterMap w.cells).Perm rest
  available : w.available = rest.length
  valid : ∀ j p, w.cells j = some p → p < nodes.length
  beyond : ∀ j, nodes.length ≤ j → w.cells j = none
  covers : nodes.length ≤ w.base + w.len
  start : m ≤ w.base ∧ w.base ≤ nodes.length
  inside : w.base + w.len + 2 * (nodes.length - w.base) ≤ size

/-- What the search over a window can return. -/
inductive Searched (cells : ℕ → Option ℕ) (base left j : ℕ) (firstNodeIdx : Option ℕ) :
    Option ℕ × Option ℕ → Prop
  | found (k p : ℕ) (f : Option ℕ) : j ≤ k → k < j + left → cells (base + k) = some p →
      Searched cells base left j firstNodeIdx (some k, f)
  | first (f p : ℕ) : firstNodeIdx = none → j ≤ f → f < j + left → cells (base + f) = some p →
      (∀ i, j ≤ i → i < f → cells (base + i) = none) →
        Searched cells base left j firstNodeIdx (none, some f)
  | kept (f : ℕ) : firstNodeIdx = some f → Searched cells base left j firstNodeIdx (none, some f)
  | empty : firstNodeIdx = none → (∀ i, j ≤ i → i < j + left → cells (base + i) = none) →
      Searched cells base left j firstNodeIdx (none, none)

theorem searchReplica_spec (ip : Bytes) {base left j : ℕ} {firstNodeIdx : Option ℕ}
    (hvalid : ∀ j p, cells j = some p → p < nodes.length) (hsize : base + j + left ≤ size) :
    ∃ r, searchReplica nodes size ip cells base left j firstNodeIdx = some r ∧
      Searched cells base left j firstNodeIdx r := by
  induction left generalizing j firstNodeIdx with
  | zero =>
    refine ⟨(none, firstNodeIdx), rfl, ?_⟩
    cases firstNodeIdx with
    | none => exact .empty rfl fun i _ _ => by omega
    | some f => exact .kept f rfl
  | succ left ih =>
    rw [searchReplica, if_pos (by omega)]
    cases hcell : cells (base + j) with
    | none =>
      obtain ⟨r, hr, hsearched⟩ := @ih (j + 1) firstNodeIdx (by omega)
      refine ⟨r, hr, ?_⟩
      -- an empty place is passed over
      have hempty : ∀ f, (∀ i, j + 1 ≤ i → i < f → cells (base + i) = none) →
          ∀ i, j ≤ i → i < f → cells (base + i) = none := by
        intro f hf i hi hif
        by_cases hij : i = j
        · rw [hij, hcell]
        · exact hf i (by omega) hif
      cases hsearched with
      | found k p f hk hk' hp => exact .found k p f (by omega) (by omega) hp
      | first f p hnone hf hf' hp hbefore =>
        exact .first f p hnone (by omega) (by omega) hp (hempty f hbefore)
      | kept f hf => exact .kept f hf
      | empty hnone hall => exact .empty hnone fun i hi hi' => hempty _ hall i hi (by omega)
    | some p =>
      obtain ⟨n, hn⟩ : ∃ n, nodes[p]? = some n := ⟨_, List.getElem?_eq_getElem (hvalid _ p hcell)⟩
      dsimp only
      rw [hn, Option.bind_some]
      split_ifs with hip
      · exact ⟨_, rfl, .found j p _ (Nat.le_refl j) (by omega) hcell⟩
      · obtain ⟨r, hr, hsearched⟩ := @ih (j + 1) (firstNodeIdx.or (some j)) (by omega)
        refine ⟨r, hr, ?_⟩
        cases hsearched with
        | found k p f hk hk' hp => exact .found k p f (by omega) (by omega) hp
        | first f p hnone hf hf' hp hbefore => cases firstNodeIdx <;> simp at hnone
        | kept f hf =>
          cases firstNodeIdx with
          | none =>
            obtain rfl : j = f := by simpa using hf
            exact .first j p rfl (Nat.le_refl j) (by omega) hcell fun i hi hij => by omega
          | some f' =>
            obtain rfl : f' = f := by simpa using hf
            exact .kept f' rfl
        | empty hnone hall => cases firstNodeIdx <;> simp at hnone

/-- A place of a window. -/
theorem range'_split {base len k : ℕ} (hk : k < len) :
    ∃ back, List.range' base len = List.range' base k ++ (base + k) :: back ∧
      back = List.range' (base + k + 1) (len - k - 1) := by
  refine ⟨_, ?_, rfl⟩
  have hsplit := (@List.range'_append_1 base k (len - k)).symm
  rw [show k + (len - k) = len by omega] at hsplit
  rw [hsplit, show len - k = (len - k - 1) + 1 by omega, List.range'_succ]
  simp

/-- Empty places hold nothing. -/
theorem filterMap_range'_nil {base k : ℕ} (h : ∀ i < k, cells (base + i) = none) :
    (List.range' base k).filterMap cells = [] := by
  rw [List.filterMap_eq_nil_iff]
  intro j hj
  obtain ⟨hlow, hhigh⟩ := List.mem_range'_1.mp hj
  have hnone := h (j - base) (by omega)
  rwa [show base + (j - base) = j by omega] at hnone

/-- A place is cleared. -/
theorem filterMap_update_none {j q : ℕ} (hnodup : l.Nodup) (hj : j ∈ l) (hq : cells j = some q) :
    (l.filterMap cells).Perm (q :: l.filterMap (update cells j none)) := by
  obtain ⟨front, back, rfl⟩ := List.append_of_mem hj
  have hmem := (List.nodup_cons.mp (List.nodup_middle.mp hnodup)).1
  have hsame : (front ++ back).filterMap (update cells j none) = (front ++ back).filterMap cells :=
    List.filterMap_congr fun i hi => update_of_ne (fun heq : i = j => hmem (heq ▸ hi)) _ _
  rw [List.filterMap_append, List.filterMap_append] at hsame
  rw [List.filterMap_append, List.filterMap_append, List.filterMap_cons, List.filterMap_cons, hq,
    update_self, hsame]
  exact List.perm_middle

/-- **The search takes one replica out of the window and loses none.** -/
theorem assignOne_spec {master : NodeInfo} (h : Ready nodes size m w rest) (hrest : rest ≠ []) :
    ∃ w' slave rest', assignOne nodes size master w = some (some w') ∧ rest.Perm (slave :: rest') ∧
      Ready nodes size m w' rest' ∧ w'.replicate = update w.replicate slave (some master.name) ∧
      ∀ j < m, w'.cells j = w.cells j := by
  have hcovers := h.covers
  obtain ⟨hm, hbase⟩ := h.start
  have hinside := h.inside
  have hlen := h.available
  obtain ⟨r, hr, hsearched⟩ := @searchReplica_spec w.cells nodes size master.ip w.base w.len 0 none
    h.valid (by omega)
  rw [assignOne, hr, Option.bind_some]
  cases hsearched with
  | found k slave f _ hk hslave =>
    have hlive := (filterMap_update_none List.nodup_range'
      (List.mem_range'_1.mpr ⟨by omega, by omega⟩) hslave).symm.trans
      h.live
    dsimp only
    rw [hslave, Option.map_some]
    refine ⟨_, slave, _, rfl, hlive.symm, ⟨.refl _, ?_, ?_, ?_, hcovers,
      ⟨hm, hbase⟩, hinside⟩, rfl, ?_⟩
    · show w.available - 1 = _
      have hcount := hlive.length_eq
      rw [List.length_cons] at hcount
      omega
    · intro j p hp
      have hp : update w.cells (w.base + k) none j = some p := hp
      by_cases hj : j = w.base + k
      · rw [hj, update_self] at hp
        exact nomatch hp
      · rw [update_of_ne hj] at hp
        exact h.valid j p hp
    · intro j hj
      show update w.cells (w.base + k) none j = none
      by_cases hjk : j = w.base + k
      · rw [hjk, update_self]
      · rw [update_of_ne hjk, h.beyond j hj]
    · intro j hj
      exact update_of_ne (by omega) _ _
  | first f slave _ _ hf hslave hbefore =>
    have hf : f < w.len := by omega
    have hfn : w.base + f < nodes.length := by
      by_contra hge
      rw [h.beyond _ (by omega)] at hslave
      exact nomatch hslave
    obtain ⟨back, hsplit, hback⟩ := @range'_split w.base w.len f hf
    have hfront := filterMap_range'_nil fun i => hbefore i (Nat.zero_le _)
    have hlive := h.live
    rw [hsplit, List.filterMap_append, hfront, List.nil_append, List.filterMap_cons, hslave]
      at hlive
    -- the window grows behind the nodes, where all places are empty
    have hgrown : (List.range' (w.base + f + 1) (w.len + f)).filterMap w.cells
        = back.filterMap w.cells := by
      have hparts := (@List.range'_append_1 (w.base + f + 1) (w.len - f - 1) (2 * f + 1)).symm
      rw [show w.len - f - 1 + (2 * f + 1) = w.len + f by omega] at hparts
      rw [hparts, List.filterMap_append, ← hback]
      rw [filterMap_range'_nil fun i _ => h.beyond _ (by omega), List.append_nil]
    dsimp only
    rw [hslave, Option.map_some]
    refine ⟨_, slave, back.filterMap w.cells, rfl, hlive.symm,
      ⟨?_, ?_, h.valid, h.beyond, ?_, ⟨?_, ?_⟩, ?_⟩, rfl, fun _ _ => rfl⟩
    · show ((List.range' (w.base + f + 1) (w.len + f)).filterMap w.cells).Perm _
      rw [hgrown]
    · show w.available - 1 = _
      have hcount := hlive.length_eq
      rw [List.length_cons] at hcount
      omega
    · show nodes.length ≤ w.base + f + 1 + (w.len + f)
      omega
    · show m ≤ w.base + f + 1
      omega
    · show w.base + f + 1 ≤ nodes.length
      omega
    · show w.base + f + 1 + (w.len + f) + 2 * (nodes.length - (w.base + f + 1)) ≤ size
      omega
  | kept f hf => exact nomatch hf
  | empty _ hall =>
    have hlive := h.live
    rw [filterMap_range'_nil fun i hi => hall i (Nat.zero_le _) (by omega)] at hlive
    exact absurd hlive.nil_eq.symm hrest

/-! ### Replicas of the masters -/

/-- The name of a node, as a replica keeps it. -/
def nodeName (nodes : List NodeInfo) (q : ℕ) : Option Bytes := nodes[q]?.map NodeInfo.name

/-- The replicas of a node among some nodes. -/
def shares (nodes : List NodeInfo) (others : List ℕ) (replicate : ℕ → Option Bytes) (q : ℕ) : ℕ :=
  others.countP fun p => replicate p = nodeName nodes q

/-- One replica gets a master. -/
theorem countP_update {γ : Type} [DecidableEq γ] {f : ℕ → γ} {p : ℕ} {x v : γ}
    (hnodup : others.Nodup) (hp : p ∈ others) (hf : f p ≠ x) :
    (others.countP fun j => decide (update f p v j = x)) =
      (others.countP fun j => decide (f j = x)) + if v = x then 1 else 0 := by
  obtain ⟨l₁, l₂, rfl⟩ := List.append_of_mem hp
  have hmem := (List.nodup_cons.mp (List.nodup_middle.mp hnodup)).1
  rw [List.mem_append, not_or] at hmem
  have hsame : ∀ l : List ℕ, p ∉ l →
      (l.countP fun j => decide (update f p v j = x)) = l.countP fun j => decide (f j = x) := by
    intro l hl
    refine List.countP_congr fun j hj => ?_
    have hne : j ≠ p := fun heq => hl (heq ▸ hj)
    rw [update_of_ne hne]
  rw [List.countP_append, List.countP_append, List.countP_cons, List.countP_cons, hsame l₁ hmem.1,
    hsame l₂ hmem.2, update_self]
  simp only [decide_eq_true_eq, if_neg hf]
  omega

/-- The state of the assignment: some of the replicas are left, all others have a master. -/
structure Progress (nodes : List NodeInfo) (size m : ℕ) (masters : ℕ → Option ℕ) (others : List ℕ)
    (w : Work) (rest : List ℕ) : Prop where
  ready : Ready nodes size m w rest
  cells : ∀ k < m, w.cells k = masters k
  sub : ∀ p ∈ rest, p ∈ others
  nodup : rest.Nodup
  unassigned : ∀ p ∈ rest, w.replicate p = none
  assigned : ∀ p ∈ others, p ∉ rest → ∃ k < m, ∃ q, masters k = some q ∧
    w.replicate p = nodeName nodes q
  untouched : ∀ p, p ∉ others → w.replicate p = none

section Assign

variable {masters : ℕ → Option ℕ} {k q : ℕ} {master : NodeInfo}

theorem assignOne_progress (hothers : others.Nodup)
    (h : Progress nodes size m masters others w rest) (hrest : rest ≠ []) (hk : k < m)
    (hq : masters k = some q) (hmaster : nodes[q]? = some master) :
    ∃ w' rest', assignOne nodes size master w = some (some w') ∧
      Progress nodes size m masters others w' rest' ∧
      rest.length = rest'.length + 1 ∧
      ∀ q', nodeName nodes q' ≠ none → shares nodes others w'.replicate q' =
        shares nodes others w.replicate q' + if nodeName nodes q = nodeName nodes q' then
          1 else 0 := by
  obtain ⟨w', slave, rest', hone, hperm, hready, hreplicate, hcells⟩ :=
    @assignOne_spec m nodes size w rest master h.ready hrest
  have hname : nodeName nodes q = some master.name := by rw [nodeName, hmaster]; rfl
  have hslave : slave ∈ rest := hperm.mem_iff.mpr List.mem_cons_self
  have hnodup := List.nodup_cons.mp (hperm.nodup_iff.mp h.nodup)
  have hmem : ∀ p, p ∈ rest' → p ∈ rest := fun p hp => hperm.mem_iff.mpr (List.mem_cons_of_mem _ hp)
  refine ⟨w', rest', hone, ⟨hready, fun j hj => by rw [hcells j hj, h.cells j hj],
    fun p hp => h.sub p (hmem p hp),
    hnodup.2, fun p hp => ?_, fun p hp hp' => ?_, fun p hp => ?_⟩, by rw [hperm.length_eq]; rfl,
      fun q' hq' => ?_⟩
  · have hne : p ≠ slave := fun heq => hnodup.1 (heq ▸ hp)
    rw [hreplicate, update_of_ne hne, h.unassigned p (hmem p hp)]
  · by_cases hps : p = slave
    · exact ⟨k, hk, q, hq, by rw [hreplicate, hps, update_self, hname]⟩
    · have hpr : p ∉ rest := fun hpr => (List.mem_cons.mp (hperm.mem_iff.mp hpr)).elim hps hp'
      obtain ⟨k', hk', q', hq', heq⟩ := h.assigned p hp hpr
      exact ⟨k', hk', q', hq', by rw [hreplicate, update_of_ne hps, heq]⟩
  · have hne : p ≠ slave := fun heq => hp (heq ▸ h.sub slave hslave)
    rw [hreplicate, update_of_ne hne, h.untouched p hp]
  · rw [shares, shares, hreplicate, ← hname]
    refine countP_update hothers (h.sub slave hslave) ?_
    rw [h.unassigned slave hslave]
    exact Ne.symm hq'

/-- One master gets its replicas as long as there are some. -/
theorem assignLoop_progress (unused : Bool) {left : ℕ} (hothers : others.Nodup)
    (h : Progress nodes size m masters others w rest) (hk : k < m) (hq : masters k = some q)
    (hmaster : nodes[q]? = some master) :
    ∃ w' rest', assignLoop nodes size unused (some q) left w = some w' ∧
      Progress nodes size m masters others w' rest' ∧
      rest'.length = rest.length - (if unused then min 1 left else left) ∧
      ∀ q', nodeName nodes q' ≠ none → shares nodes others w'.replicate q' =
        shares nodes others w.replicate q' +
          if nodeName nodes q = nodeName nodes q' then
            min (if unused then min 1 left else left) rest.length else 0 := by
  induction left generalizing w rest with
  | zero => exact ⟨w, rest, rfl, h, by simp, fun q' _ => by simp⟩
  | succ left ih =>
    rw [assignLoop, h.ready.available]
    by_cases hnil : rest = []
    · subst hnil
      exact ⟨w, [], rfl, h, by simp, fun q' _ => by simp⟩
    have hlen : rest.length ≠ 0 := fun h0 => hnil (List.eq_nil_of_length_eq_zero h0)
    obtain ⟨w₁, rest₁, hone, h₁, hrest₁, hshares₁⟩ :=
      assignOne_progress hothers h hnil hk hq hmaster
    rw [if_neg hlen, Option.bind_some, hmaster, Option.bind_some, hone, Option.bind_some]
    cases unused with
    | true =>
      refine ⟨w₁, rest₁, rfl, h₁, ?_, fun q' hq' => ?_⟩
      · rw [if_pos rfl]
        omega
      · rw [hshares₁ q' hq', if_pos rfl]
        split_ifs
        · omega
        · rfl
    | false =>
      obtain ⟨w', rest', hloop, h', hrest', hshares'⟩ := ih h₁
      refine ⟨w', rest', hloop, h', ?_, fun q' hq' => ?_⟩
      · rw [hrest', if_neg Bool.false_ne_true, if_neg Bool.false_ne_true]
        omega
      · rw [hshares' q' hq', hshares₁ q' hq', if_neg Bool.false_ne_true, if_neg Bool.false_ne_true]
        split_ifs
        · omega
        · rfl

/-- A pass over the masters: each of them gets `d` replicas as long as there are some. -/
theorem assignPass_progress (unused : Bool) {replicas d left i : ℕ}
    (hd : d = if unused then min 1 replicas else replicas) (hothers : others.Nodup)
    (hmasters : replicas ≠ 0 → ∀ k < m, ∃ q n, masters k = some q ∧ nodes[q]? = some n)
    (hinj : ∀ k k' q q', masters k = some q → masters k' = some q' →
      nodeName nodes q = nodeName nodes q' → k = k')
    (hleft : i + left = m) (h : Progress nodes size m masters others w rest) :
    ∃ w' rest', assignPass nodes size replicas unused left i w = some w' ∧
      Progress nodes size m masters others w' rest' ∧ rest'.length = rest.length - left * d ∧
      ∀ k < m, ∀ q, masters k = some q → nodeName nodes q ≠ none →
      shares nodes others w'.replicate q =
        shares nodes others w.replicate q + if i ≤ k then min d (rest.length - (k - i) * d)
          else 0 := by
  induction left generalizing i w rest with
  | zero =>
    refine ⟨w, rest, rfl, h, by simp, fun k hk q _ _ => ?_⟩
    rw [if_neg (by omega), Nat.add_zero]
  | succ left ih =>
    rw [assignPass]
    -- the master at this place
    obtain ⟨w₁, rest₁, hloop, h₁, hrest₁, hshares₁⟩ : ∃ w₁ rest₁,
        assignLoop nodes size unused (w.cells i) replicas w = some w₁ ∧
          Progress nodes size m masters others w₁ rest₁ ∧ rest₁.length = rest.length - d ∧
          ∀ k < m, ∀ q, masters k = some q → nodeName nodes q ≠ none →
            shares nodes others w₁.replicate q =
            shares nodes others w.replicate q + if k = i then min d rest.length else 0 := by
      by_cases hzero : replicas = 0
      · have hd0 : d = 0 := by
          rw [hd, hzero]
          cases unused <;> rfl
        subst hzero
        exact ⟨w, rest, rfl, h, by rw [hd0]; rfl, fun k _ q _ _ => by simp [hd0]⟩
      · obtain ⟨q, n, hq, hn⟩ := hmasters hzero i (by omega)
        rw [h.cells i (by omega), hq]
        obtain ⟨w₁, rest₁, hloop, h₁, hrest₁, hshares₁⟩ :=
          @assignLoop_progress m nodes size w rest others masters i q n unused replicas hothers h
            (by omega) hq hn
        rw [← hd] at hrest₁ hshares₁
        refine ⟨w₁, rest₁, hloop, h₁, hrest₁, fun k hk q' hq' hname => ?_⟩
        rw [hshares₁ q' hname]
        by_cases hki : k = i
        · subst hki
          obtain rfl := Option.some.inj (hq.symm.trans hq')
          rw [if_pos rfl, if_pos rfl]
        · rw [if_neg fun heq => hki (hinj k i q' q hq' hq heq.symm), if_neg hki]
    rw [hloop, Option.bind_some]
    obtain ⟨w', rest', hpass, h', hrest', hshares'⟩ := ih (i := i + 1) (by omega) h₁
    refine ⟨w', rest', hpass, h', ?_, fun k hk q hq hname => ?_⟩
    · rw [hrest', hrest₁, Nat.succ_mul]
      omega
    · rw [hshares' k hk q hq hname, hshares₁ k hk q hq hname, hrest₁]
      by_cases hki : k = i
      · subst hki
        rw [if_pos rfl, if_neg (by omega), if_pos (Nat.le_refl k), Nat.sub_self, Nat.zero_mul,
          Nat.sub_zero]
        omega
      · rw [if_neg hki]
        by_cases hik : i + 1 ≤ k
        · have hmul : (k - i) * d = (k - (i + 1)) * d + d := by
            rw [show k - i = (k - (i + 1)) + 1 by omega, Nat.succ_mul]
          rw [if_pos hik, if_pos (by omega), hmul]
          omega
        · rw [if_neg hik, if_neg (by omega)]

/-- **Both passes**: the first gives every master `replicas` of them, the second one more to
the first masters as long as there are some. -/
theorem assignReplicas_spec {replicas : ℕ} (hothers : others.Nodup)
    (hmasters : replicas ≠ 0 → ∀ k < m, ∃ q n, masters k = some q ∧ nodes[q]? = some n)
    (hinj : ∀ k k' q q', masters k = some q → masters k' = some q' →
      nodeName nodes q = nodeName nodes q' → k = k')
    (h : Progress nodes size m masters others w rest) (hlen : m * replicas ≤ rest.length)
    (hzero : replicas = 0 → rest = []) :
    ∃ w' rest', assignReplicas nodes size replicas m w = some w' ∧
      Progress nodes size m masters others w' rest' ∧
      rest'.length = rest.length - m * replicas - m ∧
      ∀ k < m, ∀ q, masters k = some q → nodeName nodes q ≠ none →
      shares nodes others w'.replicate q =
        shares nodes others w.replicate q + (replicas + min 1
          (rest.length - m * replicas - k)) := by
  obtain ⟨w₁, rest₁, hpass₁, h₁, hrest₁, hshares₁⟩ :=
    @assignPass_progress m nodes size w rest others masters false replicas replicas m 0 rfl hothers
      hmasters hinj
      (Nat.zero_add m) h
  -- there are enough for the first pass
  have hfirst : ∀ k < m, ∀ q, masters k = some q → nodeName nodes q ≠ none →
      shares nodes others w₁.replicate q = shares nodes others w.replicate q + replicas := by
    intro k hk q hq hname
    have hle : (k + 1) * replicas ≤ m * replicas := Nat.mul_le_mul_right _ hk
    rw [Nat.succ_mul] at hle
    rw [hshares₁ k hk q hq hname, if_pos (Nat.zero_le k), Nat.sub_zero]
    omega
  rw [assignReplicas, hpass₁, Option.bind_some, h₁.ready.available]
  by_cases hleft : 0 < rest₁.length
  · rw [if_pos hleft]
    have hpos : replicas ≠ 0 := by
      intro h0
      have hnil := hzero h0
      rw [hrest₁, hnil] at hleft
      simp at hleft
    obtain ⟨w', rest', hpass, h', hrest', hshares'⟩ :=
      @assignPass_progress m nodes size w₁ rest₁ others masters true replicas 1 m 0
        (by rw [if_pos rfl]; omega) hothers hmasters hinj (Nat.zero_add m) h₁
    refine ⟨w', rest', hpass, h', by rw [hrest', hrest₁, Nat.mul_one], fun k hk q hq hname => ?_⟩
    rw [hshares' k hk q hq hname, hfirst k hk q hq hname, if_pos (Nat.zero_le k), Nat.sub_zero,
      Nat.mul_one, hrest₁, Nat.add_assoc]
  · rw [if_neg hleft]
    refine ⟨w₁, rest₁, rfl, h₁, by omega, fun k hk q hq hname => ?_⟩
    rw [hfirst k hk q hq hname]
    omega

end Assign

/-! ### The plan -/

theorem filterMap_getElem? (l : List ℕ) (b k : ℕ) :
    (List.range' b k).filterMap (fun i => l[i]?) = (l.drop b).take k := by
  induction k generalizing b with
  | zero => rfl
  | succ k ih =>
    rw [List.range'_succ, List.filterMap_cons, ih]
    by_cases hb : b < l.length
    · rw [List.getElem?_eq_getElem hb, List.drop_eq_getElem_cons hb, List.take_succ_cons]
    · rw [List.getElem?_eq_none (by omega), List.drop_of_length_le (by omega),
        List.drop_of_length_le (by omega), List.take_nil, List.take_nil]

theorem join_getElem?_map (l : List ℕ) (j : ℕ) : ((l.map some)[j]?).join = l[j]? := by
  rw [List.getElem?_map]
  cases l[j]? <;> rfl

/-- The window before the first assignment. -/
theorem ready_rotate {out : List ℕ} (hout : out.Perm (List.range nodes.length)) (hm : 0 < m)
    (hmn : m ≤ nodes.length) (hsize : 3 * nodes.length ≤ size) :
    Ready nodes size m ⟨rotate (fun j => out[j]?) m (nodes.length - m), m, nodes.length - m,
      nodes.length - m,
      fun _ => none⟩ (out.drop m) := by
  have hlength : out.length = nodes.length := by rw [hout.length_eq, List.length_range]
  have hvalid : ∀ (j p : ℕ), out[j]? = some p → p < nodes.length := fun j p hp =>
    List.mem_range.mp (hout.mem_iff.mp (List.mem_of_getElem? hp))
  refine ⟨?_, by rw [List.length_drop, hlength], fun j p hp => ?_, fun j hj => ?_, ?_,
    ⟨Nat.le_refl m, hmn⟩, ?_⟩
  · dsimp only
    have hdrop : (List.range' m (nodes.length - m)).filterMap (fun j => out[j]?) = out.drop m := by
      rw [filterMap_getElem?, List.take_of_length_le (by rw [List.length_drop]; omega)]
    cases hk : nodes.length - m with
    | zero =>
      rw [List.drop_of_length_le (by omega)]
      exact .refl _
    | succ k =>
      rw [hk] at hdrop
      rw [← hdrop]
      exact rotate_live _ m k
  · have hcell : ∃ j' : ℕ, out[j']? = some p := by
      have hp : update (rotateLoop m (nodes.length - m - 1) 0 fun j => out[j]?)
          (m + (nodes.length - m) - 1)
        (out[m]?) j = some p := hp
      rw [update_apply, rotateLoop_spec] at hp
      split_ifs at hp
      · exact ⟨_, hp⟩
      · exact ⟨_, hp⟩
      · exact ⟨_, hp⟩
    obtain ⟨j', hj'⟩ := hcell
    exact hvalid j' p hj'
  · show update (rotateLoop m (nodes.length - m - 1) 0 fun j => out[j]?)
        (m + (nodes.length - m) - 1) (out[m]?) j = none
    rw [update_of_ne (by omega), rotateLoop_spec, if_neg (by omega),
      List.getElem?_eq_none (by omega)]
  · show nodes.length ≤ m + (nodes.length - m)
    omega
  · show m + (nodes.length - m) + 2 * (nodes.length - m) ≤ size
    omega

/-- A layout as it was planned, with the replicas that got no master. -/
structure Planned (nodes : List NodeInfo) (replicas m : ℕ) (out rest : List ℕ)
    (plan : Plan) : Prop where
  masters : plan.masters = out.take m
  filled : Filled m (fun j => out[j]?) m ⟨plan.slots, plan.slotsCount⟩
  sub : ∀ p ∈ rest, p ∈ out.drop m
  unassigned : ∀ p ∈ rest, plan.replicate p = none
  assigned : ∀ p ∈ out.drop m, p ∉ rest → ∃ q ∈ out.take m, plan.replicate p = nodeName nodes q
  untouched : ∀ p, p ∉ out.drop m → plan.replicate p = none
  left : rest.length = nodes.length % (replicas + 1) - m
  counts : ∀ k q : ℕ, k < m → out[k]? = some q →
    shares nodes (out.drop m) plan.replicate q = replicas + min 1
      (nodes.length % (replicas + 1) - k)

theorem nodeName_of_lt {q : ℕ} (h : q < nodes.length) :
    ∃ master, nodes[q]? = some master ∧ nodeName nodes q = some master.name :=
  ⟨nodes[q], List.getElem?_eq_getElem h, by rw [nodeName, List.getElem?_eq_getElem h]; rfl⟩

theorem nodeName_inj (hnames : (nodes.map NodeInfo.name).Nodup) {q q' : ℕ} (hq : q < nodes.length)
    (heq : nodeName nodes q = nodeName nodes q') : q = q' := by
  refine (List.getElem?_inj (by rwa [List.length_map]) hnames).mp ?_
  rwa [List.getElem?_map, List.getElem?_map]

theorem createPlan_spec (nodes : List NodeInfo) (replicas : ℕ)
    (hnames : (nodes.map NodeInfo.name).Nodup) (hthree : 3 ≤ mastersCount nodes.length replicas)
    (hslots : mastersCount nodes.length replicas ≤ managerSlots) :
    ∃ plan out rest, createPlan nodes replicas = some plan ∧ out.Perm (List.range nodes.length) ∧
      Planned nodes replicas (mastersCount nodes.length replicas) out rest plan := by
  obtain ⟨m, hm⟩ : ∃ m, m = mastersCount nodes.length replicas := ⟨_, rfl⟩
  -- the numbers of masters and of replicas
  have hdiv : m * (replicas + 1) + nodes.length % (replicas + 1) = nodes.length := by
    rw [hm, mastersCount]
    exact Nat.div_add_mod' _ _
  rw [Nat.mul_succ] at hdiv
  have hmn : m ≤ nodes.length := by omega
  rw [← hm] at hthree hslots ⊢
  obtain ⟨groups, out, hgroup, hloop, hout⟩ := interleave_perm nodes
  have hlength : out.length = nodes.length := by rw [hout.length_eq, List.length_range]
  have hnodup : out.Nodup := hout.nodup_iff.mpr List.nodup_range
  have hvalid : ∀ (j p : ℕ), out[j]? = some p → p < nodes.length := fun j p hp =>
    List.mem_range.mp (hout.mem_iff.mp (List.mem_of_getElem? hp))
  have hcells : (fun j => ((out.map some)[j]?).join) = fun j => out[j]? :=
    funext fun j => join_getElem?_map out j
  have hinj : ∀ k k' q : ℕ, out[k]? = some q → out[k']? = some q → k = k' := by
    intro k k' q hk hk'
    obtain ⟨hlt, -⟩ := List.getElem?_eq_some_iff.mp hk
    exact (List.getElem?_inj hlt hnodup).mp (hk.trans hk'.symm)
  obtain ⟨st, hst, hfilled⟩ := @slots_spec m (fun j => out[j]?) (by omega) hslots
    (fun k hk => by rw [List.getElem?_eq_getElem (by omega)]; rfl) hinj
  -- the masters as the second part finds them
  obtain ⟨masters, hmasters⟩ : ∃ masters : ℕ → Option ℕ,
      masters = fun k => if k < m then rotate (fun j => out[j]?) m (nodes.length - m) k
        else none := ⟨_, rfl⟩
  have hfrom : ∀ k q, masters k = some q → k < m ∧ out[k]? = some q := by
    intro k q hq
    rw [hmasters] at hq
    dsimp only at hq
    split_ifs at hq with hk
    refine ⟨hk, ?_⟩
    rw [rotate, update_apply, rotateLoop_spec,
      if_neg (show ¬ (m + 0 ≤ k ∧ k < m + 0 + (nodes.length - m - 1)) by omega)] at hq
    split_ifs at hq with hlast
    · -- this place is a master only if there are no replicas
      rw [List.getElem?_eq_none (by omega)] at hq
      exact nomatch hq
    · exact hq
  have hto : replicas ≠ 0 → ∀ k < m, masters k = out[k]? := by
    intro hr k hk
    have hle : m ≤ m * replicas := Nat.le_mul_of_pos_right m (Nat.pos_of_ne_zero hr)
    rw [hmasters]
    dsimp only
    rw [if_pos hk, rotate, update_of_ne (by omega), rotateLoop_spec, if_neg (by omega)]
  have hready := @ready_rotate m nodes (nodes.length * nodeWords) out hout (by omega) hmn
    (by rw [nodeWords]; omega)
  have hprogress : Progress nodes (nodes.length * nodeWords) m masters (out.drop m)
      ⟨rotate (fun j => out[j]?) m (nodes.length - m), m, nodes.length - m, nodes.length - m,
        fun _ => none⟩
      (out.drop m) := by
    refine ⟨hready, fun k hk => ?_, fun p hp => hp, hnodup.sublist (List.drop_sublist _ _),
      fun _ _ => rfl, fun p hp hp' => absurd hp hp', fun _ _ => rfl⟩
    rw [hmasters]
    dsimp only
    rw [if_pos hk]
  have hdrop : (out.drop m).length = nodes.length - m := by rw [List.length_drop, hlength]
  obtain ⟨w, rest, hassign, hp, hrest, hshares⟩ :=
    @assignReplicas_spec m nodes (nodes.length * nodeWords) _ (out.drop m) (out.drop m)
      masters replicas
      (hnodup.sublist (List.drop_sublist _ _))
      (fun hr k hk => by
        obtain ⟨q, hq⟩ : ∃ q, out[k]? = some q := ⟨_, List.getElem?_eq_getElem (by omega)⟩
        obtain ⟨master, hmaster, -⟩ := nodeName_of_lt (hvalid k q hq)
        exact ⟨q, master, (hto hr k hk).trans hq, hmaster⟩)
      (fun k k' q q' hq hq' heq => by
        obtain ⟨-, hk⟩ := hfrom k q hq
        obtain ⟨-, hk'⟩ := hfrom k' q' hq'
        have hqq := nodeName_inj hnames (hvalid k q hk) heq
        exact hinj k k' q hk (hqq ▸ hk'))
      hprogress (by rw [hdrop]; omega)
      (fun h0 => by
        refine List.eq_nil_of_length_eq_zero ?_
        rw [h0, Nat.mul_zero, Nat.mod_one] at hdiv
        omega)
  have hleft : (out.drop m).length - m * replicas = nodes.length % (replicas + 1) := by
    omega
  refine ⟨⟨out.take m, st.slots, st.slotsCount, w.replicate⟩, out, rest, ?_, hout,
    ⟨rfl, hfilled, hp.sub, hp.unassigned, fun p hp' hp'' => ?_, hp.untouched, by rw [hrest, hleft],
      fun k q hk hq => ?_⟩⟩
  · rw [createPlan]
    dsimp only
    rw [← hm, if_neg (by omega), hgroup, Option.bind_some]
    rw [show interleaveLoop nodes.length nodes.length groups [] = _ from hloop, Option.bind_some,
      hcells, hst,
      Option.bind_some, hassign, Option.map_some, List.range_eq_range', filterMap_getElem?,
        List.drop_zero]
  · obtain ⟨k, hk, q, hq, heq⟩ := hp.assigned p hp' hp''
    obtain ⟨hkm, hkq⟩ := hfrom k q hq
    refine ⟨q, List.mem_of_getElem? (i := k) ?_, heq⟩
    rw [List.getElem?_take_of_lt hkm, hkq]
  · obtain ⟨master, hmaster, hname⟩ := nodeName_of_lt (hvalid k q hq)
    by_cases hr : replicas = 0
    · -- no replicas at all
      rw [hr, Nat.mul_zero, Nat.mod_one] at hdiv
      have hnil : out.drop m = [] := List.eq_nil_of_length_eq_zero (by omega)
      rw [hnil, hr, Nat.mod_one, Nat.zero_sub]
      rfl
    · rw [hshares k hk q ((hto hr k hk).trans hq) (by rw [hname]; exact nofun), hleft]
      have hnone : shares nodes (out.drop m) (fun _ => none) q = 0 := by
        rw [shares, hname]
        exact List.countP_eq_zero.mpr fun p _ => by simp
      rw [hnone, Nat.zero_add]

/-- The replicas of a node in a plan. -/
def Plan.replicas (nodes : List NodeInfo) (plan : Plan) (q : ℕ) : ℕ :=
  (List.range nodes.length).countP fun p => plan.replicate p = nodeName nodes q

/-- A complete layout. -/
structure Complete (nodes : List NodeInfo) (replicas : ℕ) (plan : Plan) : Prop where
  masters : plan.masters.Nodup ∧ plan.masters.length = nodes.length / (replicas + 1) ∧
    ∀ q ∈ plan.masters, q < nodes.length ∧ plan.replicate q = none
  assigned : ∀ p < nodes.length, p ∉ plan.masters →
    ∃! q, q ∈ plan.masters ∧ plan.replicate p = nodeName nodes q
  slots : ∃ b : ℕ → ℕ, b 0 = 0 ∧ b plan.masters.length = managerSlots ∧
    (∀ i < plan.masters.length, b i < b (i + 1)) ∧ ∀ i q, plan.masters[i]? = some q →
      (∀ x, plan.slots q x = true ↔ b i ≤ x ∧ x < b (i + 1)) ∧ plan.slotsCount q = b (i + 1) - b i
  noSlots : ∀ p, p ∉ plan.masters → ∀ x, plan.slots p x = false
  enough : ∀ q ∈ plan.masters, replicas ≤ plan.replicas nodes q
  even : ∀ q ∈ plan.masters, ∀ q' ∈ plan.masters, plan.replicas nodes q ≤ plan.replicas nodes q' + 1

section Complete

variable {replicas : ℕ} {out : List ℕ} {plan : Plan}

/-- Only the nodes behind the masters are replicas. -/
theorem Planned.replicas_eq (h : Planned nodes replicas m out rest plan)
    (hout : out.Perm (List.range nodes.length)) {q : ℕ} (hq : q < nodes.length) :
    plan.replicas nodes q = shares nodes (out.drop m) plan.replicate q := by
  obtain ⟨master, -, hname⟩ := nodeName_of_lt hq
  have hnodup : out.Nodup := hout.nodup_iff.mpr List.nodup_range
  have hsplit := List.take_append_drop m out
  rw [Plan.replicas, ← hout.countP_eq, ← hsplit, List.countP_append, hsplit, shares]
  have hzero : ((out.take m).countP fun p => decide (plan.replicate p = nodeName nodes q)) = 0 := by
    refine List.countP_eq_zero.mpr fun p hp => ?_
    rw [h.untouched p fun hp' => List.disjoint_take_drop hnodup (Nat.le_refl m) hp hp', hname]
    simp
  rw [hzero, Nat.zero_add]

theorem Planned.complete (h : Planned nodes replicas m out rest plan)
    (hout : out.Perm (List.range nodes.length)) (hnames : (nodes.map NodeInfo.name).Nodup)
    (hm : m = nodes.length / (replicas + 1)) (hpos : 0 < m) (hslots : m ≤ managerSlots)
    (hmn : m ≤ nodes.length) (hleft : nodes.length % (replicas + 1) ≤ m) :
    Complete nodes replicas plan := by
  have hlength : out.length = nodes.length := by rw [hout.length_eq, List.length_range]
  have hnodup : out.Nodup := hout.nodup_iff.mpr List.nodup_range
  have hrest : rest = [] := List.eq_nil_of_length_eq_zero (by rw [h.left]; omega)
  have hvalid : ∀ q ∈ out, q < nodes.length := fun q hq => List.mem_range.mp (hout.mem_iff.mp hq)
  have htake : (out.take m).length = m := by rw [List.length_take]; omega
  have hmem : ∀ q ∈ out.take m, q < nodes.length := fun q hq => hvalid q (List.mem_of_mem_take hq)
  -- the replicas of a master, by its place
  have hcount : ∀ q ∈ out.take m, ∃ k < m, plan.replicas nodes q
      = replicas + min 1 (nodes.length % (replicas + 1) - k) := by
    intro q hq
    obtain ⟨k, hk⟩ := List.getElem?_of_mem hq
    obtain ⟨hkm, -⟩ := List.getElem?_eq_some_iff.mp hk
    rw [htake] at hkm
    rw [List.getElem?_take_of_lt hkm] at hk
    exact ⟨k, hkm, by rw [h.replicas_eq hout (hmem q hq), h.counts k q hkm hk]⟩
  rw [← h.masters] at hmem hcount
  refine ⟨⟨?_, ?_, fun q hq => ⟨hmem q hq, ?_⟩⟩, fun p hp hp' => ?_,
    ⟨bound m, bound_zero hpos, ?_, fun i _ => ?_, fun i q hq => ?_⟩,
    fun p hp x => ?_, fun q hq => ?_, fun q hq q' hq' => ?_⟩
  · rw [h.masters]
    exact hnodup.sublist (List.take_sublist _ _)
  · rw [h.masters, htake, hm]
  · rw [h.masters] at hq
    exact h.untouched q fun hq' => List.disjoint_take_drop hnodup (Nat.le_refl m) hq hq'
  · rw [h.masters] at hp' ⊢
    have hpd : p ∈ out.drop m := by
      have hpo : p ∈ out := hout.mem_iff.mpr (List.mem_range.mpr hp)
      rw [← List.take_append_drop m out] at hpo
      exact (List.mem_append.mp hpo).resolve_left hp'
    obtain ⟨q, hq, heq⟩ := h.assigned p hpd (by rw [hrest]; exact List.not_mem_nil)
    refine ⟨q, ⟨hq, heq⟩, fun q' hq' => ?_⟩
    exact nodeName_inj hnames (hvalid q' (List.mem_of_mem_take hq'.1)) (hq'.2.symm.trans heq)
  · rw [h.masters, htake, bound_last hpos]
  · exact bound_lt hpos hslots
  · rw [h.masters] at hq
    obtain ⟨him, -⟩ := List.getElem?_eq_some_iff.mp hq
    rw [htake] at him
    rw [List.getElem?_take_of_lt him] at hq
    refine ⟨fun x => ?_, h.filled.count i him q hq⟩
    have hslot := h.filled.slots i him q hq x
    dsimp only at hslot
    rw [hslot, decide_eq_true_eq]
  · rw [h.masters] at hp
    refine h.filled.others p (fun k hk heq => hp ?_) x
    refine List.mem_of_getElem? (i := k) ?_
    rw [List.getElem?_take_of_lt hk]
    exact heq
  · obtain ⟨k, -, hq'⟩ := hcount q hq
    omega
  · obtain ⟨k, -, hk⟩ := hcount q hq
    obtain ⟨k', -, hk'⟩ := hcount q' hq'
    omega

/-- With more nodes left over than masters, one of them gets no master. -/
theorem Planned.left_out (h : Planned nodes replicas m out rest plan)
    (hout : out.Perm (List.range nodes.length)) (hleft : m < nodes.length % (replicas + 1)) :
    ∃ p < nodes.length, p ∉ plan.masters ∧ plan.replicate p = none := by
  have hnodup : out.Nodup := hout.nodup_iff.mpr List.nodup_range
  obtain ⟨p, hp⟩ : ∃ p, p ∈ rest := by
    refine List.exists_mem_of_length_pos ?_
    rw [h.left]
    omega
  have hpd := h.sub p hp
  refine ⟨p, List.mem_range.mp (hout.mem_iff.mp (List.mem_of_mem_drop hpd)), ?_, h.unassigned p hp⟩
  rw [h.masters]
  exact fun hpt => List.disjoint_take_drop hnodup (Nat.le_refl m) hpt hpd

theorem Complete.not_left_out (hc : Complete nodes replicas plan) :
    ¬ ∃ p < nodes.length, p ∉ plan.masters ∧ plan.replicate p = none := by
  rintro ⟨p, hpn, hpm, hnone⟩
  obtain ⟨q, ⟨hq, heq⟩, -⟩ := hc.assigned p hpn hpm
  obtain ⟨master, -, hname⟩ := nodeName_of_lt (hc.masters.2.2 q hq).1
  rw [hnone, hname] at heq
  exact nomatch heq

/-- **The layout is complete** if and only if at most as many nodes are left over as there
are masters. -/
theorem layout_complete_iff (nodes : List NodeInfo) (replicas : ℕ)
    (hnames : (nodes.map NodeInfo.name).Nodup) (hthree : 3 ≤ mastersCount nodes.length replicas)
    (hslots : mastersCount nodes.length replicas ≤ managerSlots) :
    (∃ plan, createPlan nodes replicas = some plan ∧ Complete nodes replicas plan) ↔
      nodes.length % (replicas + 1) ≤ mastersCount nodes.length replicas := by
  obtain ⟨plan, out, rest, hplan, hout, hplanned⟩ :=
    createPlan_spec nodes replicas hnames hthree hslots
  constructor
  · rintro ⟨plan', hplan', hc⟩
    obtain rfl := Option.some.inj (hplan.symm.trans hplan')
    by_contra hleft
    exact hc.not_left_out (hplanned.left_out hout (Nat.lt_of_not_le hleft))
  · intro hleft
    refine ⟨plan, hplan, hplanned.complete hout hnames rfl (by omega) hslots ?_ hleft⟩
    exact Nat.div_le_self _ _

end Complete

/-- Some nodes on two hosts. -/
def sampleNodes (n : ℕ) : List NodeInfo :=
  (List.range n).map fun i => ⟨[i.toUInt8], [(i % 2).toUInt8]⟩

theorem layout_complete_iff_seven :
    (∃ plan, createPlan (sampleNodes 7) 1 = some plan ∧ Complete (sampleNodes 7) 1 plan) ↔
      (sampleNodes 7).length % (1 + 1) ≤ mastersCount (sampleNodes 7).length 1 :=
  layout_complete_iff (sampleNodes 7) 1 (by decide) (by decide) (by decide)

/-- Nineteen nodes with four replicas each: the three masters get five replicas, and one node
gets no master. -/
theorem layout_leaves_node_out :
    3 ≤ mastersCount (sampleNodes 19).length 4 ∧ ∃ plan, createPlan (sampleNodes 19) 4 = some plan ∧
      (∃ p < (sampleNodes 19).length, p ∉ plan.masters ∧ plan.replicate p = none) ∧
        ¬ Complete (sampleNodes 19) 4 plan := by
  obtain ⟨plan, out, rest, hplan, hout, hplanned⟩ :=
    createPlan_spec (sampleNodes 19) 4 (by decide) (by decide) (by decide)
  have hleft := hplanned.left_out hout (by decide)
  exact ⟨by decide, plan, hplan, hleft, fun hc => hc.not_left_out hleft⟩

end ClusterCreate
