/-
Queues with a flag in each of their elements.

An element carries a flag that is to tell whether it is in the queue, so that nobody
has to search.  `Agree` says that the flags are right: an element occurs once if its
flag is set, and not at all otherwise.

While the queue is served, an iterator goes through it and clears the flags one by
one, but the nodes stay until the end.  In between elements come in at the head and go
out anywhere (`Move`).  `Walk` is what holds then: the elements that are still ahead of
the iterator are flagged, and they stay ahead of it (`Walk.moves`).
-/
import DecomposeRedis.NodeList
import Mathlib.Logic.Function.Basic
import Mathlib.Logic.Relation

namespace FlagQueue

open Adlist Function

variable {α : Type} [DecidableEq α]

/-- The flags are right. -/
def Agree (q : NodeList α) (flag : α → Bool) : Prop := ∀ x, q.values.count x = (flag x).toNat

/-- A flagged element is somewhere in the queue. -/
def Linked (q : NodeList α) (flag : α → Bool) : Prop := ∀ x, flag x = true → x ∈ q.values

section Agree

variable {q : NodeList α} {flag : α → Bool} {x : α}

theorem Agree.mem_iff (h : Agree q flag) : x ∈ q.values ↔ flag x = true := by
  rw [← List.count_pos_iff, h x]
  cases flag x <;> simp

theorem Agree.linked (h : Agree q flag) : Linked q flag := fun _ hx => h.mem_iff.mpr hx

theorem Agree.nodup (h : Agree q flag) : q.values.Nodup := by
  refine List.nodup_iff_count_le_one.mpr fun x => ?_
  rw [h x]
  exact Bool.toNat_le _

theorem agree_nil {flag : α → Bool} (hq : q.nodes = []) (h : ∀ x, flag x = false) :
    Agree q flag := by
  intro x
  rw [NodeList.values, hq, h x]
  rfl

/-- An element comes in that is not flagged. -/
theorem Agree.push {q' : NodeList α} (h : Agree q flag) (hx : flag x = false)
    (hq : ∀ y, q'.values.count y = q.values.count y + if x = y then 1 else 0) :
    Agree q' (update flag x true) := by
  intro y
  rw [hq, h y]
  rcases eq_or_ne x y with rfl | hne
  · rw [update_self, hx, if_pos rfl]
    rfl
  · rw [update_of_ne hne.symm, if_neg hne, Nat.add_zero]

/-- A flagged element goes out. -/
theorem Agree.drop {node : ℕ} (h : Agree q flag) (hx : (node, x) ∈ q.nodes) :
    Agree (q.without node) (update flag x false) := by
  intro y
  have hcount := count_without hx y
  rw [h y] at hcount
  rcases eq_or_ne x y with rfl | hne
  · rw [if_pos rfl] at hcount
    rw [update_self]
    have := Bool.toNat_le (flag x)
    show _ = 0
    omega
  · rw [if_neg hne] at hcount
    rw [update_of_ne hne.symm]
    omega

end Agree

/-- A queue and the flags. -/
structure View (α : Type) where
  queue : NodeList α
  flag : α → Bool

/-- What happens to a queue while an iterator goes through it: an element comes in at
the head, if `p` allows that, or goes out. -/
inductive Move (p : Prop) : View α → View α → Prop where
  | push {v : View α} {x : α} (hp : p) (h : v.flag x = false) :
    Move p v ⟨listAddNodeHead v.queue x, update v.flag x true⟩
  | drop {v : View α} {node : ℕ} {x : α} (hmem : (node, x) ∈ v.queue.nodes) (h : v.flag x = true) :
    Move p v ⟨v.queue.without node, update v.flag x false⟩

/-- Any number of moves. -/
def Moves (p : Prop) : View α → View α → Prop := Relation.ReflTransGen (Move p)

section Moves

variable {p : Prop} {v v' v'' : View α} {flag : α → Bool} {q : NodeList α} {x : α}

theorem Moves.refl : Moves p v v := Relation.ReflTransGen.refl

theorem Moves.trans (h : Moves p v v') (h' : Moves p v' v'') : Moves p v v'' :=
  Relation.ReflTransGen.trans h h'

theorem Moves.agree (h : Moves p v v') (hv : Agree v.queue v.flag) : Agree v'.queue v'.flag := by
  induction h with
  | refl => exact hv
  | tail _ hmove ih =>
    cases hmove with
    | push _ hflag => exact ih.push hflag fun y => count_listAddNodeHead _ y
    | drop hmem _ => exact ih.drop hmem

theorem linked_without {node : ℕ} (hmem : (node, x) ∈ q.nodes)
    (h : Linked q flag) : Linked (q.without node) (update flag x false) := by
  intro y hy
  rcases eq_or_ne y x with rfl | hne
  · rw [update_self] at hy
    cases hy
  rw [update_of_ne hne] at hy
  obtain ⟨node', hnode'⟩ := NodeList.mem_values.mp (h y hy)
  refine NodeList.mem_values.mpr ⟨node', List.mem_filter.mpr ⟨hnode', decide_eq_true ?_⟩⟩
  rintro rfl
  exact hne (NodeList.value_unique hnode' hmem)

theorem linked_listAddNodeHead (h : Linked q flag) :
    Linked (listAddNodeHead q x) (update flag x true) := by
  intro y hy
  rcases eq_or_ne y x with rfl | hne
  · exact List.mem_cons_self
  · rw [update_of_ne hne] at hy
    exact List.mem_cons_of_mem _ (h y hy)

theorem Moves.linked (h : Moves p v v') (hv : Linked v.queue v.flag) : Linked v'.queue v'.flag := by
  induction h with
  | refl => exact hv
  | tail _ hmove ih =>
    cases hmove with
    | push _ _ => exact linked_listAddNodeHead ih
    | drop hmem _ => exact linked_without hmem ih

/-- Where nothing comes in, no flag is set. -/
theorem Moves.flag_le (h : Moves False v v') (hx : v'.flag x = true) : v.flag x = true := by
  induction h with
  | refl => exact hx
  | @tail v₁ _ _ hmove ih =>
    refine ih ?_
    cases hmove with
    | push hp _ => exact hp.elim
    | @drop _ y _ _ =>
      have hx : update v₁.flag y false x = true := hx
      rcases eq_or_ne x y with rfl | hne
      · rw [update_self] at hx
        cases hx
      · rwa [update_of_ne hne] at hx

/-- A node that was freed does not come back. -/
theorem Moves.old (h : Moves p v v') : v.queue.fresh ≤ v'.queue.fresh
    ∧ ∀ x ∈ v'.queue.nodes, x.1 < v.queue.fresh → x ∈ v.queue.nodes := by
  induction h with
  | refl => exact ⟨Nat.le_refl _, fun x hx _ => hx⟩
  | tail _ hmove ih =>
    cases hmove with
    | push _ _ =>
      refine ⟨Nat.le_trans ih.1 (Nat.le_succ _), fun x hx hlt => ?_⟩
      rcases List.mem_cons.mp hx with rfl | hx
      · exact absurd (Nat.lt_of_lt_of_le hlt ih.1) (Nat.lt_irrefl _)
      · exact ih.2 x hx hlt
    | drop _ _ => exact ⟨ih.1, fun x hx hlt => ih.2 x (List.mem_of_mem_filter hx) hlt⟩

/-- Where nothing comes in, the nodes are old. -/
theorem Moves.nodes_subset (h : Moves False v v') : v'.queue.nodes ⊆ v.queue.nodes := by
  induction h with
  | refl => exact List.Subset.refl _
  | tail _ hmove ih =>
    cases hmove with
    | push hp _ => exact hp.elim
    | drop _ _ => exact fun _ hx => ih (List.mem_of_mem_filter hx)

end Moves

/-- An iterator has the nodes `rest` ahead. -/
structure Walk (v : View α) (rest : List (ℕ × α)) : Prop where
  ahead : ∃ front, v.queue.nodes = front ++ rest ∧ ∀ x ∈ rest, x.2 ∉ front.map Prod.snd
  nodup : (rest.map Prod.snd).Nodup
  flagged : ∀ x ∈ rest, v.flag x.2 = true
  linked : Linked v.queue v.flag

/-- The nodes of `rest` that are still linked. -/
def stillLinked (q : NodeList α) (rest : List (ℕ × α)) : List (ℕ × α) :=
  rest.filter fun x => x ∈ q.nodes

theorem mem_stillLinked {q : NodeList α} {rest : List (ℕ × α)} {x : ℕ × α} :
    x ∈ stillLinked q rest ↔ x ∈ rest ∧ x ∈ q.nodes := by
  simp [stillLinked]

section Walk

variable {p : Prop} {v v' : View α} {rest : List (ℕ × α)} {x : α}

theorem Agree.walk (h : Agree v.queue v.flag) : Walk v v.queue.nodes where
  ahead := ⟨[], rfl, fun _ _ => List.not_mem_nil⟩
  nodup := h.nodup
  flagged := fun x hx => h.mem_iff.mp (List.mem_map.mpr ⟨x, hx, rfl⟩)
  linked := h.linked

omit [DecidableEq α] in
theorem Walk.mem (h : Walk v rest) {x : ℕ × α} (hx : x ∈ rest) : x ∈ v.queue.nodes := by
  obtain ⟨front, hnodes, -⟩ := h.ahead
  rw [hnodes]
  exact List.mem_append_right _ hx

theorem Walk.stillLinked_eq (h : Walk v rest) : stillLinked v.queue rest = rest :=
  List.filter_eq_self.mpr fun _ hx => decide_eq_true (h.mem hx)

/-- The iterator moves on, and the flag of the element is cleared. -/
theorem Walk.next {x : ℕ × α} (h : Walk v (x :: rest)) :
    Walk ⟨v.queue, update v.flag x.2 false⟩ rest where
  ahead := by
    obtain ⟨front, hnodes, hfront⟩ := h.ahead
    refine ⟨front ++ [x], by rw [hnodes, List.append_assoc]; rfl, fun y hy hmem => ?_⟩
    rw [List.map_append, List.mem_append] at hmem
    rcases hmem with hmem | hmem
    · exact hfront y (List.mem_cons_of_mem _ hy) hmem
    · have hnodup := h.nodup
      rw [List.map_cons, List.nodup_cons] at hnodup
      rw [List.map_singleton, List.mem_singleton] at hmem
      exact hnodup.1 (hmem ▸ List.mem_map.mpr ⟨y, hy, rfl⟩)
  nodup := (List.nodup_cons.mp h.nodup).2
  flagged := by
    intro y hy
    have hne : y.2 ≠ x.2 := by
      have hnodup := h.nodup
      rw [List.map_cons, List.nodup_cons] at hnodup
      exact fun heq => hnodup.1 (heq ▸ List.mem_map.mpr ⟨y, hy, rfl⟩)
    show update v.flag x.2 false y.2 = true
    rw [update_of_ne hne]
    exact h.flagged y (List.mem_cons_of_mem _ hy)
  linked := by
    intro y hy
    have hy : update v.flag x.2 false y = true := hy
    rcases eq_or_ne y x.2 with rfl | hne
    · rw [update_self] at hy
      cases hy
    · rw [update_of_ne hne] at hy
      exact h.linked y hy

theorem Walk.push (h : Walk v rest) (hx : v.flag x = false) :
    Walk ⟨listAddNodeHead v.queue x, update v.flag x true⟩ rest := by
  have hne : ∀ y ∈ rest, y.2 ≠ x := by
    rintro y hy rfl
    rw [h.flagged y hy] at hx
    cases hx
  obtain ⟨front, hnodes, hfront⟩ := h.ahead
  refine ⟨⟨(v.queue.fresh, x) :: front, ?_, fun y hy hmem => ?_⟩, h.nodup, fun y hy => ?_,
    linked_listAddNodeHead h.linked⟩
  · rw [nodes_listAddNodeHead, hnodes]
    rfl
  · rcases List.mem_cons.mp hmem with heq | hmem
    · exact hne y hy heq
    · exact hfront y hy hmem
  · show update v.flag x true y.2 = true
    rw [update_of_ne (hne y hy)]
    exact h.flagged y hy

theorem Walk.drop {node : ℕ} (h : Walk v rest) (hmem : (node, x) ∈ v.queue.nodes) :
    Walk ⟨v.queue.without node, update v.flag x false⟩ (rest.filter fun y => y.1 ≠ node) := by
  obtain ⟨front, hnodes, hfront⟩ := h.ahead
  have hsub : (rest.filter fun y => y.1 ≠ node).Sublist rest := List.filter_sublist
  refine ⟨⟨front.filter fun y => y.1 ≠ node, ?_, fun y hy hmem' => ?_⟩,
    h.nodup.sublist (hsub.map _), fun y hy => ?_, linked_without hmem h.linked⟩
  · rw [nodes_without, hnodes, List.filter_append]
  · exact hfront y (hsub.subset hy) ((List.filter_sublist.map _).subset hmem')
  · obtain ⟨hy, hnode⟩ := List.mem_filter.mp hy
    -- `x` has no other node that is ahead
    have hne : y.2 ≠ x := by
      rintro rfl
      rw [hnodes, List.mem_append] at hmem
      rcases hmem with hmem | hmem
      · exact hfront y hy (List.mem_map.mpr ⟨_, hmem, rfl⟩)
      · exact of_decide_eq_true hnode
          (congrArg Prod.fst (List.inj_on_of_nodup_map h.nodup hy hmem rfl))
    show update v.flag x false y.2 = true
    rw [update_of_ne hne]
    exact h.flagged y hy

/-- **What is ahead** of the iterator stays ahead of it, except for what goes out. -/
theorem Walk.moves (h : Walk v rest) (hm : Moves p v v') : Walk v' (stillLinked v'.queue rest) := by
  induction hm with
  | refl => rwa [h.stillLinked_eq]
  | @tail v₁ v₂ hm hmove ih =>
    have hmem : ∀ x ∈ rest, x ∈ v₂.queue.nodes → x ∈ v₁.queue.nodes := by
      intro x hx hx₂
      have hlt := Nat.lt_of_lt_of_le (v.queue.lt_fresh x (h.mem hx)) (Moves.old hm).1
      exact (Moves.old (Relation.ReflTransGen.single hmove)).2 x hx₂ hlt
    cases hmove with
    | @push x _ hflag =>
      have heq : stillLinked (listAddNodeHead v₁.queue x) rest = stillLinked v₁.queue rest := by
        refine List.filter_congr fun y hy => decide_eq_decide.mpr ⟨hmem y hy, fun hy₁ => ?_⟩
        exact List.mem_cons_of_mem _ hy₁
      rw [heq]
      exact ih.push hflag
    | @drop node x hx _ =>
      have heq : stillLinked (v₁.queue.without node) rest
          = (stillLinked v₁.queue rest).filter fun y => y.1 ≠ node := by
        rw [stillLinked, stillLinked, List.filter_filter]
        refine List.filter_congr fun y _ => ?_
        rw [nodes_without]
        simp [Bool.and_comm]
      rw [heq]
      exact ih.drop hx

/-- If all flagged elements are ahead of the iterator and none comes in, they stay ahead
of it. -/
theorem Walk.ahead_moves (h : Walk v rest) (hm : Moves False v v')
    (hall : ∀ x, v.flag x = true → x ∈ rest.map Prod.snd) (hx : v'.flag x = true) :
    x ∈ (stillLinked v'.queue rest).map Prod.snd := by
  obtain ⟨y, hy, rfl⟩ := List.mem_map.mp (hall x (hm.flag_le hx))
  obtain ⟨node, hnode⟩ := NodeList.mem_values.mp ((h.moves hm).linked y.2 hx)
  obtain ⟨front, hnodes, hfront⟩ := h.ahead
  have hmem := hm.nodes_subset hnode
  rw [hnodes, List.mem_append] at hmem
  rcases hmem with hmem | hmem
  · exact absurd (List.mem_map.mpr ⟨_, hmem, rfl⟩) (hfront y hy)
  · exact List.mem_map.mpr ⟨_, mem_stillLinked.mpr ⟨hmem, hnode⟩, rfl⟩

end Walk

end FlagQueue
