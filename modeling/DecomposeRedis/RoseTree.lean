/-
Rose trees, addressed by positions.

A position is the list of child indices on the way from the root, so it plays
the part of a pointer to a node in a tree without sharing.  The file gives

* `nodeAt` / `replace` — reading and overwriting the subtree at a position,
  with the rules for reading after an overwrite (at, below, above and beside
  the position);
* `countP` — how many labels satisfy a predicate, and how an overwrite changes
  that number (`countP_replace`);
* `map` — relabelling;
* `Everywhere` — an invariant that relates each label to the labels of its
  children; `Everywhere.replace` reduces its preservation by an overwrite to
  the new subtree and the one parent whose child list changed.
-/
import Mathlib.Data.List.Basic
import Mathlib.Tactic

universe u

/-- A finitely branching tree with a label at every node. -/
inductive RoseTree (α : Type u) where
  | node (label : α) (children : List (RoseTree α))

namespace RoseTree

variable {α : Type u} {p : List ℕ} {i : ℕ}

/-- The label of the root. -/
def label : RoseTree α → α
  | node l _ => l

/-- The children of the root, in order. -/
def children : RoseTree α → List (RoseTree α)
  | node _ cs => cs

@[simp] theorem label_node (l : α) (cs : List (RoseTree α)) : (node l cs).label = l := rfl

@[simp] theorem children_node (l : α) (cs : List (RoseTree α)) :
    (node l cs).children = cs := rfl

@[simp] theorem node_eta (t : RoseTree α) : node t.label t.children = t := by
  cases t
  rfl

/-- Induction over rose trees, with the hypothesis for every child. -/
@[induction_eliminator]
theorem induct {motive : RoseTree α → Prop}
    (node : ∀ l cs, (∀ c ∈ cs, motive c) → motive (node l cs)) (t : RoseTree α) : motive t :=
  @RoseTree.rec α motive (fun cs => ∀ c ∈ cs, motive c) node (by simp)
    (fun _ _ hc hcs => by simpa using ⟨hc, hcs⟩) t

/-! ### Reading and overwriting at a position -/

/-- The subtree at a position, if the position lies in the tree. -/
def nodeAt : RoseTree α → List ℕ → Option (RoseTree α)
  | t, [] => some t
  | node _ cs, i :: p => cs[i]?.bind fun c => nodeAt c p

/-- The tree with the subtree at a position overwritten. -/
def replace : RoseTree α → List ℕ → RoseTree α → RoseTree α
  | _, [], m => m
  | node l cs, i :: p, m => node l (cs.modify i fun c => replace c p m)

@[simp] theorem nodeAt_nil (t : RoseTree α) : t.nodeAt [] = some t := by
  cases t
  rfl

@[simp] theorem nodeAt_cons (l : α) (cs : List (RoseTree α)) (i : ℕ) (p : List ℕ) :
    (node l cs).nodeAt (i :: p) = cs[i]?.bind fun c => c.nodeAt p := rfl

@[simp] theorem replace_nil (t m : RoseTree α) : t.replace [] m = m := by
  cases t
  rfl

@[simp] theorem replace_cons (l : α) (cs : List (RoseTree α)) (i : ℕ) (p : List ℕ)
    (m : RoseTree α) :
    (node l cs).replace (i :: p) m = node l (cs.modify i fun c => c.replace p m) := rfl

/-- A position below the root goes through one of the children. -/
theorem nodeAt_cons_eq_some {t n : RoseTree α} :
    t.nodeAt (i :: p) = some n ↔ ∃ c, t.children[i]? = some c ∧ c.nodeAt p = some n := by
  cases t with
  | node l cs => simp [Option.bind_eq_some_iff]

theorem nodeAt_append (t : RoseTree α) (p q : List ℕ) :
    t.nodeAt (p ++ q) = (t.nodeAt p).bind fun n => n.nodeAt q := by
  induction p generalizing t with
  | nil => simp
  | cons i p ih =>
    cases t with
    | node l cs =>
      rw [List.cons_append, nodeAt_cons, nodeAt_cons]
      cases cs[i]? with
      | none => rfl
      | some c => simpa using ih c

/-- Every prefix of a position is a position. -/
theorem exists_nodeAt_of_append {t n : RoseTree α} {q : List ℕ}
    (h : t.nodeAt (p ++ q) = some n) : ∃ m, t.nodeAt p = some m ∧ m.nodeAt q = some n := by
  rw [nodeAt_append] at h
  exact Option.bind_eq_some_iff.mp h

@[simp] theorem label_replace_cons (t m : RoseTree α) (i : ℕ) (p : List ℕ) :
    (t.replace (i :: p) m).label = t.label := by
  cases t
  rfl

theorem children_replace_cons (t m : RoseTree α) (i : ℕ) (p : List ℕ) :
    (t.replace (i :: p) m).children = t.children.modify i fun c => c.replace p m := by
  cases t
  rfl

theorem getElem?_children_replace {t c : RoseTree α} (p : List ℕ) (m : RoseTree α)
    (hc : t.children[i]? = some c) :
    (t.replace (i :: p) m).children[i]? = some (c.replace p m) := by
  rw [children_replace_cons, List.getElem?_modify_eq, hc]
  rfl

/-- Overwriting a child. -/
theorem replace_singleton (t m : RoseTree α) (i : ℕ) :
    t.replace [i] m = node t.label (t.children.set i m) := by
  cases t with
  | node l cs =>
    simp only [replace_cons, replace_nil, label_node, children_node, List.set_eq_modify]

/-- Reading at or below the overwritten position sees the new subtree. -/
theorem nodeAt_replace_append {t n : RoseTree α} (m : RoseTree α) (q : List ℕ)
    (h : t.nodeAt p = some n) : (t.replace p m).nodeAt (p ++ q) = m.nodeAt q := by
  induction p generalizing t with
  | nil => simp
  | cons i p ih =>
    obtain ⟨c, hc, hn⟩ := nodeAt_cons_eq_some.mp h
    rw [List.cons_append, ← ih hn, ← node_eta (t.replace (i :: p) m), nodeAt_cons,
      getElem?_children_replace p m hc, Option.bind_some]

theorem nodeAt_replace {t n : RoseTree α} (m : RoseTree α)
    (h : t.nodeAt p = some n) : (t.replace p m).nodeAt p = some m := by
  simpa using nodeAt_replace_append m [] h

/-- Reading above the overwritten position sees the overwrite inside. -/
theorem nodeAt_replace_above {t n : RoseTree α} (q : List ℕ) (m : RoseTree α)
    (h : t.nodeAt p = some n) : (t.replace (p ++ q) m).nodeAt p = some (n.replace q m) := by
  induction p generalizing t with
  | nil =>
    obtain rfl : t = n := by simpa using h
    simp
  | cons i p ih =>
    obtain ⟨c, hc, hn⟩ := nodeAt_cons_eq_some.mp h
    exact nodeAt_cons_eq_some.mpr ⟨_, getElem?_children_replace (p ++ q) m hc, ih hn⟩

theorem modify_of_getElem? {β : Type u} {cs : List β} {c : β} (hc : cs[i]? = some c)
    (f : β → β) : cs.modify i f = cs.set i (f c) := by
  rw [List.modify_eq_set_getElem?, hc]
  rfl

theorem set_of_getElem? {β : Type u} {cs : List β} {c : β} (hc : cs[i]? = some c) :
    cs.set i c = cs := by
  obtain ⟨hi, rfl⟩ := List.getElem?_eq_some_iff.mp hc
  exact List.set_getElem_self hi

/-- Overwriting below `p` is overwriting at `p` with the changed subtree. -/
theorem replace_append {t n : RoseTree α} (q : List ℕ) (m : RoseTree α)
    (h : t.nodeAt p = some n) : t.replace (p ++ q) m = t.replace p (n.replace q m) := by
  induction p generalizing t with
  | nil =>
    obtain rfl : t = n := by simpa using h
    simp
  | cons i p ih =>
    cases t with
    | node l cs =>
      obtain ⟨c, hc, hn⟩ := nodeAt_cons_eq_some.mp h
      rw [children_node] at hc
      rw [List.cons_append, replace_cons, replace_cons, modify_of_getElem? hc,
        modify_of_getElem? hc, ih hn]

@[simp] theorem replace_replace (t a b : RoseTree α) (p : List ℕ) :
    (t.replace p a).replace p b = t.replace p b := by
  induction p generalizing t with
  | nil => simp
  | cons i p ih =>
    cases t with
    | node l cs =>
      rw [replace_cons, replace_cons, replace_cons, List.modify_modify_eq]
      congr 2
      funext c
      exact ih c

theorem replace_self {t n : RoseTree α} (h : t.nodeAt p = some n) :
    t.replace p n = t := by
  induction p generalizing t with
  | nil => simpa using h.symm
  | cons i p ih =>
    cases t with
    | node l cs =>
      obtain ⟨c, hc, hn⟩ := nodeAt_cons_eq_some.mp h
      rw [children_node] at hc
      rw [replace_cons, modify_of_getElem? hc, ih hn, set_of_getElem? hc]

/-! ### Counting labels -/

mutual
/-- The number of nodes whose label satisfies `f`. -/
def countP (f : α → Bool) : RoseTree α → ℕ
  | node l cs => (if f l then 1 else 0) + countPs f cs
/-- The number of nodes in a forest whose label satisfies `f`. -/
def countPs (f : α → Bool) : List (RoseTree α) → ℕ
  | [] => 0
  | c :: cs => countP f c + countPs f cs
end

theorem countPs_eq_sum (f : α → Bool) (cs : List (RoseTree α)) :
    countPs f cs = (cs.map (countP f)).sum := by
  induction cs with
  | nil => rfl
  | cons c cs ih => rw [countPs, List.map_cons, List.sum_cons, ih]

theorem countP_eq (f : α → Bool) (t : RoseTree α) :
    countP f t = (if f t.label then 1 else 0) + (t.children.map (countP f)).sum := by
  cases t with
  | node l cs => rw [countP, countPs_eq_sum, label_node, children_node]

theorem sum_map_modify {β : Type u} (g : β → ℕ) (h : β → β) {cs : List β} {i : ℕ} {c : β}
    (hc : cs[i]? = some c) :
    ((cs.modify i h).map g).sum + g c = (cs.map g).sum + g (h c) := by
  induction cs generalizing i with
  | nil => simp at hc
  | cons d cs ih =>
    cases i with
    | zero =>
      obtain rfl : d = c := by simpa using hc
      simp only [List.modify_zero_cons, List.map_cons, List.sum_cons]
      omega
    | succ i =>
      have := ih (i := i) (by simpa using hc)
      simp only [List.modify_succ_cons, List.map_cons, List.sum_cons]
      omega

/-- What an overwrite does to a count. -/
theorem countP_replace (f : α → Bool) {t n : RoseTree α} {p : List ℕ} (m : RoseTree α)
    (h : t.nodeAt p = some n) :
    countP f (t.replace p m) + countP f n = countP f t + countP f m := by
  induction p generalizing t with
  | nil =>
    obtain rfl : t = n := by simpa using h
    rw [replace_nil]
    omega
  | cons i p ih =>
    obtain ⟨c, hc, hn⟩ := nodeAt_cons_eq_some.mp h
    have hsum := sum_map_modify (countP f) (fun c => c.replace p m) hc
    have hchild := ih hn
    rw [countP_eq f (t.replace (i :: p) m), countP_eq f t, label_replace_cons,
      children_replace_cons]
    omega

/-! ### Relabelling -/

mutual
/-- The tree with `f` applied to every label. -/
def map {β : Type u} (f : α → β) : RoseTree α → RoseTree β
  | node l cs => node (f l) (mapList f cs)
/-- The same for a forest. -/
def mapList {β : Type u} (f : α → β) : List (RoseTree α) → List (RoseTree β)
  | [] => []
  | c :: cs => map f c :: mapList f cs
end

theorem map_node {β : Type u} (f : α → β) (l : α) (cs : List (RoseTree α)) :
    map f (node l cs) = node (f l) (cs.map (map f)) := by
  have hlist : ∀ cs : List (RoseTree α), mapList f cs = cs.map (map f) := by
    intro cs
    induction cs with
    | nil => rfl
    | cons c cs ih => rw [mapList, List.map_cons, ih]
  rw [map, hlist]

/-- Relabelling does not change the number of nodes. -/
theorem countP_map_true {β : Type u} (f : α → β) (t : RoseTree α) :
    countP (fun _ => true) (map f t) = countP (fun _ => true) t := by
  induction t with
  | node l cs ih =>
    rw [map_node, countP_eq, countP_eq, children_node, children_node, List.map_map]
    congr 2
    exact List.map_congr_left ih

/-! ### Invariants between a label and the labels of its children -/

/-- `P` holds of every label together with the labels of its children. -/
def Everywhere (P : α → List α → Prop) (t : RoseTree α) : Prop :=
  ∀ p n, t.nodeAt p = some n → P n.label (n.children.map label)

theorem everywhere_node {P : α → List α → Prop} {l : α} {cs : List (RoseTree α)} :
    Everywhere P (node l cs) ↔ P l (cs.map label) ∧ ∀ c ∈ cs, Everywhere P c := by
  constructor
  · intro h
    refine ⟨h [] _ rfl, fun c hc p n hn => ?_⟩
    obtain ⟨i, hi⟩ := List.getElem?_of_mem hc
    exact h (i :: p) n (nodeAt_cons_eq_some.mpr ⟨c, hi, hn⟩)
  · rintro ⟨hroot, hcs⟩ p n hn
    cases p with
    | nil =>
      obtain rfl : node l cs = n := by simpa using hn
      exact hroot
    | cons i p =>
      obtain ⟨c, hc, hn⟩ := nodeAt_cons_eq_some.mp hn
      exact hcs c (List.mem_of_getElem? hc) p n hn

namespace Everywhere

variable {P : α → List α → Prop} {t n m : RoseTree α} {p : List ℕ}

theorem root (h : Everywhere P t) : P t.label (t.children.map label) :=
  h [] t (nodeAt_nil t)

theorem nodeAt (h : Everywhere P t) (hn : t.nodeAt p = some n) : Everywhere P n := by
  intro q k hk
  refine h (p ++ q) k ?_
  rw [nodeAt_append, hn]
  exact hk

theorem child (h : Everywhere P t) {c : RoseTree α} (hc : c ∈ t.children) : Everywhere P c := by
  obtain ⟨i, hi⟩ := List.getElem?_of_mem hc
  exact h.nodeAt (p := [i]) (nodeAt_cons_eq_some.mpr ⟨c, hi, nodeAt_nil c⟩)

/-- An invariant survives an overwrite if the new subtree has it and the
parent of the overwritten node, if any, accepts the new child label. -/
theorem replace (h : Everywhere P t) (hn : t.nodeAt p = some n) (hm : Everywhere P m)
    (hparent : ∀ q i k, p = q ++ [i] → t.nodeAt q = some k →
      P k.label ((k.children.map label).set i m.label)) :
    Everywhere P (t.replace p m) := by
  induction p generalizing t with
  | nil =>
    rw [replace_nil]
    exact hm
  | cons i p ih =>
    obtain ⟨c, hc, hcn⟩ := nodeAt_cons_eq_some.mp hn
    rw [← node_eta (t.replace (i :: p) m), everywhere_node, label_replace_cons,
      children_replace_cons, modify_of_getElem? hc]
    refine ⟨?_, fun d hd => ?_⟩
    · cases p with
      | nil =>
        rw [replace_nil, List.map_set]
        exact hparent [] i t rfl (nodeAt_nil t)
      | cons j p =>
        rw [List.map_set, label_replace_cons, ← List.map_set, set_of_getElem? hc]
        exact h.root
    · obtain hd | rfl := List.mem_or_eq_of_mem_set hd
      · exact h.child hd
      · refine ih (h.child (List.mem_of_getElem? hc)) hcn fun q j k hq hk => ?_
        exact hparent (i :: q) j k (by rw [hq]; rfl)
          (nodeAt_cons_eq_some.mpr ⟨c, hc, hk⟩)

end Everywhere

end RoseTree
