/-
Lists of nodes (adlist.c), as the code that uses them sees them.

A `list` is a sequence of nodes, each with a value.  The code keeps pointers to nodes
(in a client, or in an iterator), so a node has an identity; a node that was freed is
not linked any more, and following a pointer to it is an error (`none`), as is deleting
it once more.
-/
import Mathlib.Data.List.Nodup
import Mathlib.Data.List.Basic

namespace Adlist

variable {α : Type}

/-- The nodes in order, each of them with its value.  Identities from `fresh` on are
not in use yet. -/
structure NodeList (α : Type) where
  nodes : List (ℕ × α)
  fresh : ℕ
  nodup : (nodes.map Prod.fst).Nodup
  lt_fresh : ∀ x ∈ nodes, x.1 < fresh

variable (l : NodeList α)

/-- The values in order. -/
def NodeList.values : List α := l.nodes.map Prod.snd

/-- `listCreate` -/
def listCreate : NodeList α := ⟨[], 0, .nil, nofun⟩

/-- `listLength` -/
def listLength : ℕ := l.nodes.length

/-- `listAddNodeTail` -/
def listAddNodeTail (value : α) : NodeList α where
  nodes := l.nodes ++ [(l.fresh, value)]
  fresh := l.fresh + 1
  nodup := by
    rw [List.map_append]
    refine l.nodup.append (List.nodup_singleton _) ?_
    rintro n hn hfresh
    obtain ⟨x, hx, rfl⟩ := List.mem_map.mp hn
    rw [List.map_singleton, List.mem_singleton] at hfresh
    exact absurd hfresh (Nat.ne_of_lt (l.lt_fresh x hx))
  lt_fresh := by
    intro x hx
    rcases List.mem_append.mp hx with hx | hx
    · exact Nat.lt_succ_of_lt (l.lt_fresh x hx)
    · rw [List.mem_singleton.mp hx]
      exact Nat.lt_succ_self _

/-- `listAddNodeHead` -/
def listAddNodeHead (value : α) : NodeList α where
  nodes := (l.fresh, value) :: l.nodes
  fresh := l.fresh + 1
  nodup := by
    rw [List.map_cons, List.nodup_cons]
    refine ⟨fun hfresh => ?_, l.nodup⟩
    obtain ⟨x, hx, heq⟩ := List.mem_map.mp hfresh
    exact absurd heq (Nat.ne_of_lt (l.lt_fresh x hx))
  lt_fresh := by
    intro x hx
    rcases List.mem_cons.mp hx with rfl | hx
    · exact Nat.lt_succ_self _
    · exact Nat.lt_succ_of_lt (l.lt_fresh x hx)

/-- The list without a node. -/
def NodeList.without (node : ℕ) : NodeList α where
  nodes := l.nodes.filter fun x => x.1 ≠ node
  fresh := l.fresh
  nodup := l.nodup.sublist (List.filter_sublist.map Prod.fst)
  lt_fresh := fun x hx => l.lt_fresh x (List.mem_of_mem_filter hx)

/-- `listDelNode`, for a node that is linked in the list. -/
def listDelNode (node : ℕ) : Option (NodeList α) :=
  if node ∈ l.nodes.map Prod.fst then some (l.without node) else none

/-- `listEmpty` -/
def listEmpty : NodeList α := ⟨[], l.fresh, .nil, nofun⟩

/-- `listFirst` -/
def listFirst : Option (ℕ × α) := l.nodes.head?

/-- `listLast` -/
def listLast : Option (ℕ × α) := l.nodes.getLast?

/-- `listSearchKey`, on a list without a `match` method. -/
def listSearchKey [DecidableEq α] (key : α) : Option ℕ :=
  (l.nodes.find? fun x => x.2 = key).map Prod.fst

/-- `listRewind`: the node at which an iterator from head to tail starts. -/
def listRewind : Option ℕ := l.nodes.head?.map Prod.fst

/-- The value of a node among `nodes`, and the node after it. -/
def linkedAt : List (ℕ × α) → ℕ → Option (α × Option ℕ)
  | [], _ => none
  | x :: rest, node =>
    if x.1 = node then some (x.2, rest.head?.map Prod.fst) else linkedAt rest node

/-- `listNext`, for an iterator that is at a node: the value of the node, and where the
iterator is afterwards.  The iterator moves on at once, before the value is used. -/
def listNext (node : ℕ) : Option (α × Option ℕ) := linkedAt l.nodes node

variable {l}

@[simp] theorem nodes_listAddNodeTail (value : α) :
    (listAddNodeTail l value).nodes = l.nodes ++ [(l.fresh, value)] := rfl

@[simp] theorem nodes_listAddNodeHead (value : α) :
    (listAddNodeHead l value).nodes = (l.fresh, value) :: l.nodes := rfl

@[simp] theorem nodes_without (node : ℕ) :
    (l.without node).nodes = l.nodes.filter fun x => x.1 ≠ node := rfl

theorem listLast_listAddNodeTail (value : α) :
    listLast (listAddNodeTail l value) = some (l.fresh, value) :=
  List.getLast?_concat

variable {node : ℕ} {x : α}

/-- A node has one value. -/
theorem NodeList.value_unique {y : α} (hx : (node, x) ∈ l.nodes) (hy : (node, y) ∈ l.nodes) :
    x = y :=
  congrArg Prod.snd (List.inj_on_of_nodup_map l.nodup hx hy rfl)

theorem listDelNode_of_mem (h : (node, x) ∈ l.nodes) :
    listDelNode l node = some (l.without node) :=
  if_pos (List.mem_map.mpr ⟨_, h, rfl⟩)

theorem NodeList.mem_values : x ∈ l.values ↔ ∃ node, (node, x) ∈ l.nodes := by
  simp [NodeList.values]

theorem linkedAt_append {front rest : List (ℕ × α)} (h : node ∉ front.map Prod.fst) :
    linkedAt (front ++ (node, x) :: rest) node = some (x, rest.head?.map Prod.fst) := by
  induction front with
  | nil => exact if_pos rfl
  | cons y front ih =>
    rw [List.map_cons, List.mem_cons, not_or] at h
    exact (if_neg (Ne.symm h.1)).trans (ih h.2)

theorem linkedAt_eq_none {nodes : List (ℕ × α)} (h : node ∉ nodes.map Prod.fst) :
    linkedAt nodes node = none := by
  induction nodes with
  | nil => rfl
  | cons y nodes ih =>
    rw [List.map_cons, List.mem_cons, not_or] at h
    exact (if_neg (Ne.symm h.1)).trans (ih h.2)

theorem listNext_eq {front rest : List (ℕ × α)} (h : l.nodes = front ++ (node, x) :: rest) :
    listNext l node = some (x, rest.head?.map Prod.fst) := by
  have hnodup := l.nodup
  rw [h, List.map_append, List.map_cons, List.nodup_append] at hnodup
  rw [listNext, h]
  exact linkedAt_append fun hnode => hnodup.2.2 node hnode node List.mem_cons_self rfl

theorem nodes_without_of_split {front rest : List (ℕ × α)}
    (h : l.nodes = front ++ (node, x) :: rest) : (l.without node).nodes = front ++ rest := by
  have hnodup := l.nodup
  rw [h, List.map_append, List.map_cons, List.nodup_append, List.nodup_cons] at hnodup
  obtain ⟨-, ⟨hrest, -⟩, hfront⟩ := hnodup
  rw [nodes_without, h, List.filter_append, List.filter_cons_of_neg (by simp)]
  rw [List.filter_eq_self.mpr, List.filter_eq_self.mpr]
  · intro y hy
    refine decide_eq_true ?_
    rintro rfl
    exact hrest (List.mem_map.mpr ⟨y, hy, rfl⟩)
  · intro y hy
    refine decide_eq_true ?_
    rintro rfl
    exact hfront y.1 (List.mem_map.mpr ⟨y, hy, rfl⟩) y.1 List.mem_cons_self rfl

section Search

variable [DecidableEq α]

theorem mem_of_listSearchKey {key : α} (h : listSearchKey l key = some node) :
    (node, key) ∈ l.nodes := by
  obtain ⟨x, hfind, rfl⟩ := Option.map_eq_some_iff.mp h
  have hkey : x.2 = key := by simpa using List.find?_some hfind
  rw [← hkey]
  exact List.mem_of_find?_eq_some hfind

theorem exists_listSearchKey {key : α} (h : key ∈ l.values) :
    ∃ node, listSearchKey l key = some node := by
  obtain ⟨node, hnode⟩ := NodeList.mem_values.mp h
  have hsome : (l.nodes.find? fun x => x.2 = key).isSome :=
    List.find?_isSome.mpr ⟨_, hnode, decide_eq_true rfl⟩
  obtain ⟨x, hx⟩ := Option.isSome_iff_exists.mp hsome
  exact ⟨x.1, by rw [listSearchKey, hx]; rfl⟩

theorem count_listAddNodeHead (value x : α) :
    (listAddNodeHead l value).values.count x = l.values.count x + if value = x then 1 else 0 := by
  simp [NodeList.values, List.count_cons]

theorem count_listAddNodeTail (value x : α) :
    (listAddNodeTail l value).values.count x = l.values.count x + if value = x then 1 else 0 := by
  simp [NodeList.values, List.count_append, List.count_singleton]

/-- A deleted node takes one occurrence of its value with it. -/
theorem count_without {value : α} (h : (node, value) ∈ l.nodes) (x : α) :
    l.values.count x = (l.without node).values.count x + if value = x then 1 else 0 := by
  obtain ⟨front, rest, hsplit⟩ := List.mem_iff_append.mp h
  rw [NodeList.values, NodeList.values, nodes_without_of_split hsplit, hsplit]
  simp only [List.map_append, List.map_cons, List.count_append, List.count_cons, beq_iff_eq]
  exact (Nat.add_assoc _ _ _).symm

end Search

end Adlist
