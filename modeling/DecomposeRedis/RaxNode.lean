/-
Radix tree nodes (`raxNode` of rax.h) and the byte strings they spell.

A node is its header — the bits `iskey`, `isnull`, `iscompr`, the `size` bytes
of the character section and the value pointer — together with its children in
order, so a node with everything below it is a rose tree of headers.  A pointer
to a node is its position in the tree: nodes are never shared, and a
reallocation changes the address of a node but not its position.

The abstract meaning of a node is `lookup`: the finite map from byte strings to
value pointers stored below it, read off one byte at a time (`step` sees a
compressed node as the chain of single-child nodes it stands for).

* `lookup_single`, `lookup_plain` — the map of a node from those of its children;
* `lookup_spell` — below a position, the map is that of the node there;
* `lookup_replace` — overwriting the node at a position changes the map exactly
  on the strings that extend the one spelled by the position.
-/
import DecomposeRedis.RoseTree

open RoseTree

namespace Rax

variable {V : Type}

/-- The byte strings used as keys. -/
abbrev Key := List UInt8

/-- A pointer to a node: the child indices followed from the head. -/
abbrev NodePtr := List ℕ

/-- `RAX_NODE_MAX_SIZE`, `(1<<29)-1`: the largest value of the 29 bit field `size`. -/
def raxNodeMaxSize : ℕ := 536870911

/-- A `raxNode` without its child pointers.  `data` is the character section:
the edge bytes of a plain node, the string of a compressed one; `value` is what
the value pointer at the end of the node holds, when there is one. -/
structure RaxHdr (V : Type) where
  iskey : Bool
  isnull : Bool
  iscompr : Bool
  data : List UInt8
  value : Option V

/-- The field `size`. -/
def RaxHdr.size (l : RaxHdr V) : ℕ := l.data.length

/-- A node with everything below it. -/
abbrev RaxNode (V : Type) := RoseTree (RaxHdr V)

/-! ### Node operations -/

/-- `raxNewNode`: a fresh plain node that is not a key, its edges and children
as the caller fills them in. -/
def raxNewNode (edges : List UInt8) (cs : List (RaxNode V)) : RaxNode V :=
  node { iskey := false, isnull := false, iscompr := false, data := edges, value := none } cs

/-- `raxSetData`: make the node a key.  A NULL value is only flagged. -/
def raxSetData (l : RaxHdr V) (data : Option V) : RaxHdr V :=
  match data with
  | some v => { l with iskey := true, isnull := false, value := some v }
  | none => { l with iskey := true, isnull := true }

/-- `raxGetData`: the value pointer, NULL when flagged so. -/
def raxGetData (l : RaxHdr V) : Option V :=
  if l.isnull then none else l.value

/-- `raxAddChild` after its allocations: a new leaf is linked under `c`, before
the first edge byte that is larger.  The result comes with the index of the new
child. -/
def raxAddChild (n : RaxNode V) (c : UInt8) : RaxNode V × ℕ :=
  let pos := n.label.data.findIdx fun b => c < b
  (node { n.label with data := n.label.data.take pos ++ c :: n.label.data.drop pos }
    (n.children.take pos ++ raxNewNode [] [] :: n.children.drop pos), pos)

/-- `raxCompressNode` after its allocations: a node without children becomes a
compressed one over a new leaf and keeps its key. -/
def raxCompressNode (n : RaxNode V) (s : List UInt8) : RaxNode V :=
  node { n.label with iscompr := true, data := s } [raxNewNode [] []]

/-- The test `h->iskey || (!h->iscompr && h->size != 1)` at which every upward
and downward scan of a chain stops. -/
def endsChain (l : RaxHdr V) : Bool :=
  l.iskey || (!l.iscompr && l.size != 1)

@[simp] theorem raxSetData_iskey (l : RaxHdr V) (d : Option V) :
    (raxSetData l d).iskey = true := by
  cases d <;> rfl

@[simp] theorem raxSetData_iscompr (l : RaxHdr V) (d : Option V) :
    (raxSetData l d).iscompr = l.iscompr := by
  cases d <;> rfl

@[simp] theorem raxSetData_data (l : RaxHdr V) (d : Option V) :
    (raxSetData l d).data = l.data := by
  cases d <;> rfl

@[simp] theorem raxGetData_raxSetData (l : RaxHdr V) (d : Option V) :
    raxGetData (raxSetData l d) = d := by
  cases d <;> rfl

/-! ### Well-formed nodes -/

/-- The header of a node fits its number of children. -/
structure ShapeOk (l : RaxHdr V) (arity : ℕ) : Prop where
  /-- A compressed node has two characters or more and one child. -/
  compr : l.iscompr = true → 2 ≤ l.data.length ∧ arity = 1
  /-- A plain node has one child for each edge byte. -/
  plain : l.iscompr = false → arity = l.data.length
  /-- The edge bytes of a plain node are strictly increasing. -/
  sorted : l.iscompr = false → l.data.Pairwise (· < ·)

/-- What the header of a node and those of its children have to satisfy. -/
structure NodeOk (l : RaxHdr V) (cls : List (RaxHdr V)) : Prop where
  shape : ShapeOk l cls.length
  /-- A child without children is a key. -/
  leaf : ∀ c ∈ cls, c.data = [] → c.iskey = true

/-- Every header of the tree fits. -/
abbrev ShapesOk (n : RaxNode V) : Prop := Everywhere (fun l cls => ShapeOk l cls.length) n

/-- Every node of the tree is well formed. -/
abbrev NodesOk (n : RaxNode V) : Prop := Everywhere NodeOk n

variable {n : RaxNode V}

theorem NodesOk.shapes (h : NodesOk n) : ShapesOk n :=
  fun p m hm => (h p m hm).shape

theorem ShapesOk.shape (h : ShapesOk n) : ShapeOk n.label n.children.length := by
  simpa using h.root

variable {t : RaxNode V} {p : NodePtr}

theorem ShapesOk.shapeAt (h : ShapesOk t)
    (hn : t.nodeAt p = some n) : ShapeOk n.label n.children.length := by
  simpa using h p n hn

variable {l : RaxHdr V} {cs : List (RaxNode V)} {i k : ℕ}

theorem ShapeOk.nodup (h : ShapeOk l k) (hc : l.iscompr = false) :
    l.data.Nodup :=
  (h.sorted hc).imp fun hlt => UInt8.ne_of_lt hlt

theorem ShapeOk.lt_iff (h : ShapeOk l k) (hc : l.iscompr = false) :
    i < k ↔ i < l.data.length := by
  rw [h.plain hc]

theorem ShapeOk.data_ne_nil (h : ShapeOk l k) (hc : l.iscompr = true) : l.data ≠ [] :=
  List.ne_nil_of_length_pos (Nat.lt_of_succ_lt (h.compr hc).1)

/-- A node with at most one byte is not compressed. -/
theorem ShapeOk.plain_of_lt (h : ShapeOk l k) (hsize : l.size < 2) :
    l.iscompr = false := by
  by_contra hc
  exact absurd (h.compr (by simpa using hc)).1 (Nat.not_le.mpr hsize)

/-- A node without bytes is plain and has no children. -/
theorem ShapeOk.childless (h : ShapeOk l k) (hdata : l.data = []) :
    l.iscompr = false ∧ k = 0 := by
  have hplain := h.plain_of_lt (by simp [RaxHdr.size, hdata])
  exact ⟨hplain, by rw [h.plain hplain, hdata, List.length_nil]⟩

/-! ### The map a node stands for -/

/-- The node one byte further down; inside a compressed node, the rest of it. -/
def step (n : RaxNode V) (b : UInt8) : Option (RaxNode V) :=
  if n.label.iscompr then
    match n.label.data, n.children with
    | a :: rest, [c] =>
      if a = b then
        some (if rest = [] then c else
          node { iskey := false, isnull := false, iscompr := true, data := rest, value := none }
            [c])
      else none
    | _, _ => none
  else n.children[n.label.data.idxOf b]?

/-- The pointer stored under a string below a node; NULL is `some none`. -/
def lookup : RaxNode V → Key → Option (Option V)
  | n, [] => if n.label.iskey then some (raxGetData n.label) else none
  | n, b :: k => (step n b).bind fun m => lookup m k

theorem lookup_nil (n : RaxNode V) :
    lookup n [] = if n.label.iskey then some (raxGetData n.label) else none := rfl

theorem lookup_cons (n : RaxNode V) (b : UInt8) (k : Key) :
    lookup n (b :: k) = (step n b).bind fun m => lookup m k := rfl

theorem lookup_plain (h : l.iscompr = false) (b : UInt8) (k : Key) :
    lookup (node l cs) (b :: k) = cs[l.data.idxOf b]?.bind fun c => lookup c k := by
  simp [lookup_cons, step, h]

variable {c : RaxNode V}

/-- The map of a compressed node. -/
theorem lookup_compr (h : l.iscompr = true)
    (hd : l.data ≠ []) {k : Key} (hk : k ≠ []) :
    lookup (node l [c]) k = if l.data <+: k then lookup c (k.drop l.data.length) else none := by
  -- Induction on the string: one byte leads to the rest of the node.
  obtain ⟨iskey, isnull, iscompr, data, value⟩ := l
  simp only at h hd
  subst h
  induction data generalizing k iskey isnull value with
  | nil => exact absurd rfl hd
  | cons a rest ih =>
    obtain ⟨b, k, rfl⟩ := List.exists_cons_of_ne_nil hk
    rw [lookup_cons]
    simp only [step, label_node, children_node, if_true]
    by_cases hab : a = b
    · subst hab
      rw [if_pos rfl, Option.bind_some]
      rcases rest with _ | ⟨a', rest⟩
      · simp
      · rw [if_neg (by simp)]
        rcases k with _ | ⟨b', k⟩
        · simp [lookup_nil]
        · rw [ih (by simp) false false none (by simp)]
          simp
    · rw [if_neg hab, if_neg (by simp [hab])]
      rfl

/-- A node with one child, compressed or not, is one string away from it. -/
theorem lookup_single (hd : l.data ≠ [])
    (h : l.iscompr = false → l.data.length = 1) {k : Key} (hk : k ≠ []) :
    lookup (node l [c]) k = if l.data <+: k then lookup c (k.drop l.data.length) else none := by
  cases hc : l.iscompr with
  | true => exact lookup_compr hc hd hk
  | false =>
    obtain ⟨a, ha⟩ := List.length_eq_one_iff.mp (h hc)
    obtain ⟨b, k, rfl⟩ := List.exists_cons_of_ne_nil hk
    rw [lookup_plain hc, ha]
    by_cases hab : a = b
    · subst hab
      simp
    · simp [hab, Ne.symm hab]

/-! ### Positions and the strings they spell -/

/-- The bytes on the way from a node to its `i`-th child. -/
def edge (l : RaxHdr V) (i : ℕ) : Key :=
  if l.iscompr then l.data else (l.data.drop i).take 1

/-- The bytes on the way from a node to a position below it. -/
def spell : RaxNode V → NodePtr → Key
  | _, [] => []
  | node l cs, i :: p => edge l i ++ (cs[i]?.map fun c => spell c p).getD []

@[simp] theorem spell_nil (n : RaxNode V) : spell n [] = [] := by
  cases n
  rfl

theorem spell_cons (p : NodePtr) (h : n.children[i]? = some c) :
    spell n (i :: p) = edge n.label i ++ spell c p := by
  cases n with
  | node l cs =>
    rw [children_node] at h
    rw [spell, h]
    rfl

theorem spell_append (q : NodePtr) (h : t.nodeAt p = some n) :
    spell t (p ++ q) = spell t p ++ spell n q := by
  induction p generalizing t with
  | nil =>
    obtain rfl : t = n := by simpa using h
    simp
  | cons i p ih =>
    obtain ⟨c, hc, hn⟩ := nodeAt_cons_eq_some.mp h
    rw [List.cons_append, spell_cons _ hc, spell_cons _ hc, ih hn, List.append_assoc]

/-- Overwriting at a position leaves the way to it as it was. -/
theorem spell_replace (m : RaxNode V)
    (h : t.nodeAt p = some n) : spell (t.replace p m) p = spell t p := by
  induction p generalizing t with
  | nil => simp
  | cons i p ih =>
    obtain ⟨c, hc, hn⟩ := nodeAt_cons_eq_some.mp h
    rw [spell_cons _ (getElem?_children_replace p m hc), spell_cons _ hc, label_replace_cons, ih hn]

theorem edge_compr (h : l.iscompr = true) (i : ℕ) : edge l i = l.data := by
  rw [edge, if_pos h]

theorem edge_plain (h : l.iscompr = false) (hi : i < l.data.length) :
    edge l i = [l.data[i]] := by
  rw [edge, if_neg (by simp [h])]
  simp [List.take_one, List.getElem?_eq_getElem hi]

theorem edge_ne_nil (hn : ShapeOk n.label n.children.length) (hc : n.children[i]? = some c) :
    edge n.label i ≠ [] := by
  have hi : i < n.children.length := (List.getElem?_eq_some_iff.mp hc).choose
  cases hcompr : n.label.iscompr with
  | true =>
    rw [edge_compr hcompr]
    exact hn.data_ne_nil hcompr
  | false =>
    rw [edge_plain hcompr ((hn.lt_iff hcompr).mp hi)]
    simp

/-- The map of a node at a string that goes through its `i`-th child. -/
theorem lookup_edge (hn : ShapeOk n.label n.children.length)
    (hc : n.children[i]? = some c) (k : Key) : lookup n (edge n.label i ++ k) = lookup c k := by
  obtain ⟨l, cs⟩ := n
  simp only [children_node, label_node] at hn hc ⊢
  have hi : i < cs.length := (List.getElem?_eq_some_iff.mp hc).choose
  have hne : edge l i ≠ [] := edge_ne_nil (n := node l cs) hn hc
  cases hcompr : l.iscompr with
  | true =>
    obtain ⟨c', rfl⟩ := List.length_eq_one_iff.mp (hn.compr hcompr).2
    obtain rfl : i = 0 := by simpa using hi
    obtain rfl : c' = c := by simpa using hc
    rw [edge_compr hcompr] at hne ⊢
    rw [lookup_compr hcompr hne (by simp [hne]), if_pos (List.prefix_append _ _),
      List.drop_left]
  | false =>
    rw [edge_plain hcompr ((hn.lt_iff hcompr).mp hi), List.singleton_append, lookup_plain hcompr,
      (hn.nodup hcompr).idxOf_getElem, hc]
    rfl

theorem lookup_plain_of_not_mem (hl : ShapeOk l cs.length)
    (hp : l.iscompr = false) {b : UInt8} (hb : b ∉ l.data) (k : Key) :
    lookup (node l cs) (b :: k) = none := by
  rw [lookup_plain hp, List.idxOf_eq_length hb, ← hl.plain hp, List.getElem?_eq_none (le_refl _)]
  rfl

/-- Changing the `i`-th child of a node does not matter at strings that do not
go through that child. -/
theorem lookup_modify_beside (hn : ShapeOk l cs.length) (hc : cs[i]? = some c)
    (f : RaxNode V → RaxNode V) {k : Key} (hk : ¬ edge l i <+: k) :
    lookup (node l (cs.modify i f)) k = lookup (node l cs) k := by
  have hi : i < cs.length := (List.getElem?_eq_some_iff.mp hc).choose
  rcases k with _ | ⟨b, k⟩
  · rfl
  cases hcompr : l.iscompr with
  | true =>
    obtain ⟨c', rfl⟩ := List.length_eq_one_iff.mp (hn.compr hcompr).2
    obtain rfl : i = 0 := by simpa using hi
    have hne := hn.data_ne_nil hcompr
    rw [edge_compr hcompr] at hk
    rw [List.modify_zero_cons, lookup_compr hcompr hne (by simp),
      lookup_compr hcompr hne (by simp), if_neg hk, if_neg hk]
  | false =>
    have hi' := (hn.lt_iff hcompr).mp hi
    have hb : i ≠ l.data.idxOf b := by
      rintro rfl
      refine hk ?_
      rw [edge_plain hcompr hi', List.getElem_idxOf]
      exact ⟨k, rfl⟩
    rw [lookup_plain hcompr, lookup_plain hcompr, List.getElem?_modify_ne _ _ hb]

/-- Below a position, the map of the tree is the map of the node there. -/
theorem lookup_spell (ht : ShapesOk t)
    (h : t.nodeAt p = some n) (k : Key) : lookup t (spell t p ++ k) = lookup n k := by
  induction p generalizing t with
  | nil =>
    obtain rfl : t = n := by simpa using h
    simp
  | cons i p ih =>
    obtain ⟨c, hc, hn⟩ := nodeAt_cons_eq_some.mp h
    rw [spell_cons _ hc, List.append_assoc, lookup_edge ht.shape hc]
    exact ih (ht.child (List.mem_of_getElem? hc)) hn

/-- **Overwriting at a position.**  The map changes on the strings that extend
the one spelled by the position, where it becomes that of the new node. -/
theorem lookup_replace (ht : ShapesOk t)
    (h : t.nodeAt p = some n) (m : RaxNode V) (k : Key) :
    lookup (t.replace p m) k =
      if spell t p <+: k then lookup m (k.drop (spell t p).length) else lookup t k := by
  induction p generalizing t k with
  | nil => simp
  | cons i p ih =>
    obtain ⟨c, hc, hn⟩ := nodeAt_cons_eq_some.mp h
    have hshape := ht.shape
    have hc' := getElem?_children_replace p m hc
    have hshape' : ShapeOk (t.replace (i :: p) m).label (t.replace (i :: p) m).children.length := by
      rw [label_replace_cons, children_replace_cons, List.length_modify]
      exact hshape
    rw [spell_cons _ hc]
    by_cases hk : edge t.label i <+: k
    · -- The string goes through the changed child.
      obtain ⟨k, rfl⟩ := hk
      have hleft := lookup_edge hshape' hc' k
      rw [label_replace_cons] at hleft
      rw [hleft, ih (ht.child (List.mem_of_getElem? hc)) hn k, lookup_edge hshape hc]
      simp only [List.prefix_append_right_inj, List.length_append, List.drop_length_add_append]
    · rw [if_neg fun hpre => hk ((List.prefix_append _ _).trans hpre),
        ← node_eta (t.replace (i :: p) m), label_replace_cons, children_replace_cons]
      exact (lookup_modify_beside hshape hc _ hk).trans (by rw [node_eta])

/-- The map of `m` is that of `n` except at `k`, where it is `d`. -/
def Updates (n m : RaxNode V) (k : Key) (d : Option (Option V)) : Prop :=
  ∀ k', lookup m k' = if k' = k then d else lookup n k'

/-- A change of the map below a position is a change of the whole map. -/
theorem Updates.replace {m : RaxNode V} {k : Key} {d : Option (Option V)}
    (ht : ShapesOk t) (h : t.nodeAt p = some n) (hm : Updates n m k d) :
    Updates t (t.replace p m) (spell t p ++ k) d := by
  intro k'
  rw [lookup_replace ht h]
  by_cases hk : spell t p <+: k'
  · obtain ⟨k', rfl⟩ := hk
    rw [if_pos (List.prefix_append _ _), List.drop_left, hm k', lookup_spell ht h]
    simp
  · rw [if_neg hk, if_neg]
    rintro rfl
    exact hk (List.prefix_append _ _)

/-- Exchanging a subtree for one with the same map does not change the map. -/
theorem lookup_replace_of_same {m : RaxNode V} (ht : ShapesOk t)
    (h : t.nodeAt p = some n) (hm : ∀ k, lookup m k = lookup n k) (k : Key) :
    lookup (t.replace p m) k = lookup t k := by
  rw [lookup_replace ht h]
  split_ifs with hk
  · obtain ⟨k, rfl⟩ := hk
    rw [List.drop_left, hm, lookup_spell ht h]
  · rfl

end Rax
