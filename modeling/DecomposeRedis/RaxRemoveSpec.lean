/-
What `raxRemove` does.

The removal clears the key, walks up over the nodes that are left without a
purpose, unlinks them at the first node that has to stay and merges the chain
that may come up there.  The walk up relies on the parents that `raxLowWalk`
put on the stack: `ParentsKnown` says that the ones it takes are there.

* `thin_lookup` — below the first freed node there was the removed key only;
* `lookup_unlink`, `nodesOk_unlink` — what unlinking a child does to a node;
* `cleanupLoop_spec` — where the walk up stops;
* `raxRemove_spec` — with the parents known, `raxRemove` deletes exactly the
  key and keeps the tree well formed and the counters right.
-/
import DecomposeRedis.RaxMerge

open RoseTree

namespace Rax

variable {V : Type} {n t leaf c : RaxNode V} {r p q : NodePtr} {stack : List NodePtr} {i : ℕ}

/-! ### Clearing a key -/

/-- The node with `iskey` cleared. -/
def clearKey (n : RaxNode V) : RaxNode V := node { n.label with iskey := false } n.children

theorem updates_clearKey (n : RaxNode V) : Updates n (clearKey n) [] none := by
  intro k
  by_cases hk : k = []
  · subst hk
    rfl
  · rw [if_neg hk]
    have : lookup (node (clearKey n).label n.children) k = lookup (node n.label n.children) k :=
      lookup_congr_key n.children (by rfl) (by rfl) hk
    rwa [node_eta] at this

theorem nodesOk_clearKey (h : NodesOk n) : NodesOk (clearKey n) := by
  rw [← node_eta n] at h
  exact h.congr_key rfl rfl

theorem nodeCount_clearKey (n : RaxNode V) : nodeCount (clearKey n) = nodeCount n := by
  rw [clearKey, nodeCount_node, ← nodeCount_node n.label, node_eta]

theorem keyCount_clearKey (h : n.label.iskey = true) :
    keyCount (clearKey n) + 1 = keyCount n := by
  have hn : keyCount n = 1 + (n.children.map keyCount).sum := by
    have := keyCount_node n.label n.children
    rwa [h, if_pos rfl, node_eta] at this
  rw [clearKey, keyCount_node, hn, if_neg (by simp)]
  omega

/-! ### A branch with a single key -/

/-- The map of a thin branch. -/
theorem thin_lookup (hn : ShapesOk n) (h : Thin n r)
    (hleaf : n.nodeAt r = some leaf) (hdata : leaf.label.data = []) (k : Key) :
    lookup n k = if k = spell n r then lookup leaf [] else none := by
  induction r generalizing n k with
  | nil =>
    obtain rfl : n = leaf := by simpa using hleaf
    rw [spell_nil]
    by_cases hk : k = []
    · rw [if_pos hk, hk]
    · have hshape := hn.shape
      obtain ⟨hplain, hlen⟩ := hshape.childless hdata
      rw [if_neg hk, ← node_eta n, List.length_eq_zero_iff.mp hlen, lookup_childless hplain hk]
  | cons i r ih =>
    obtain ⟨rfl, hkey, hone, c, hc, hcleaf, hthin⟩ := h.cons hn hleaf
    have hcok : ShapesOk c := hn.child (by rw [hc]; simp)
    have hspell : spell n (0 :: r) = n.label.data ++ spell c r := by
      rw [spell_cons (c := c) r (by rw [hc]; rfl), hone.edge]
    rw [hspell]
    by_cases hk : k = []
    · subst hk
      rw [if_neg (by simp [hone.1]), lookup_nil, hkey]
      rfl
    · have hlookup := lookup_single (c := c) hone.1 hone.2 hk
      rw [← hc] at hlookup
      rw [hlookup]
      by_cases hp : n.label.data <+: k
      · obtain ⟨k, rfl⟩ := hp
        rw [if_pos (List.prefix_append _ _), List.drop_left, ih hcok hthin hcleaf]
        simp
      · rw [if_neg hp, if_neg]
        rintro rfl
        exact hp (List.prefix_append _ _)

theorem thin_count (hn : ShapesOk n) (h : Thin n r) (hleaf : n.nodeAt r = some leaf) :
    nodeCount n = r.length + nodeCount leaf ∧ keyCount n = keyCount leaf := by
  induction r generalizing n with
  | nil =>
    obtain rfl : n = leaf := by simpa using hleaf
    simp
  | cons i r ih =>
    obtain ⟨rfl, hkey, -, c, hc, hcleaf, hthin⟩ := h.cons hn hleaf
    have hcok : ShapesOk c := hn.child (by rw [hc]; simp)
    obtain ⟨h1, h2⟩ := ih hcok hthin hcleaf
    rw [hc, nodeCount_node, keyCount_node, hkey]
    simp [h1, h2]
    omega

/-! ### Unlinking a child -/

/-- The node `raxRemoveChild` makes when the child is the `i`-th one. -/
def unlink (n : RaxNode V) (i : ℕ) : RaxNode V :=
  let l := n.label
  if l.iscompr then
    let l' : RaxHdr V := { l with isnull := false, iscompr := false, data := [] }
    node (if l.iskey then raxSetData l' (raxGetData l) else l') []
  else node { l with data := l.data.eraseIdx i } (n.children.eraseIdx i)

theorem unlink_compr (h : n.label.iscompr = true) (i : ℕ) :
    (unlink n i).children = [] ∧ (unlink n i).label.data = [] ∧
      (unlink n i).label.iscompr = false ∧ (unlink n i).label.iskey = n.label.iskey ∧
      own (unlink n i).label = own n.label := by
  rw [unlink, if_pos h]
  cases hk : n.label.iskey <;> simp [own, hk]

theorem unlink_plain (h : n.label.iscompr = false) (i : ℕ) :
    unlink n i = node { n.label with data := n.label.data.eraseIdx i }
      (n.children.eraseIdx i) := by
  rw [unlink, if_neg (by simp [h])]

/-- The result of `raxRemoveChild` is plain and as much a key as before. -/
theorem unlink_label (n : RaxNode V) (i : ℕ) :
    (unlink n i).label.iscompr = false ∧ (unlink n i).label.iskey = n.label.iskey := by
  cases hc : n.label.iscompr with
  | true =>
    obtain ⟨-, -, h1, h2, -⟩ := unlink_compr hc i
    exact ⟨h1, h2⟩
  | false =>
    rw [unlink_plain hc]
    exact ⟨hc, rfl⟩

/-- Unlinking does not look at what hangs below the child. -/
theorem unlink_replace (n x : RaxNode V) (i : ℕ) (r : NodePtr) :
    unlink (n.replace (i :: r) x) i = unlink n i := by
  rw [unlink, unlink, label_replace_cons, children_replace_cons, List.eraseIdx_modify_of_eq]

section Unlink

variable {n c : RaxNode V} {i : ℕ}

theorem shapeOk_unlink (hn : ShapeOk n.label n.children.length) (hcompr : n.label.iscompr = false)
    (hi : i < n.children.length) :
    ShapeOk { n.label with data := n.label.data.eraseIdx i } (n.children.eraseIdx i).length := by
  refine ⟨fun h => ?_, fun _ => ?_, fun _ => ?_⟩
  · rw [hcompr] at h
    cases h
  · have hlen := hn.plain hcompr
    rw [List.length_eraseIdx_of_lt hi, List.length_eraseIdx_of_lt (by omega), hlen]
  · exact (hn.sorted hcompr).sublist (List.eraseIdx_sublist _ _)

/-- An edge other than the erased one leads to the same child as before. -/
theorem lookup_eraseIdx {l : RaxHdr V} {cs : List (RaxNode V)} (hl : ShapeOk l cs.length)
    (hcompr : l.iscompr = false)
    (hl' : ShapeOk { l with data := l.data.eraseIdx i } (cs.eraseIdx i).length) {b : UInt8}
    {j : ℕ} (hj : l.data[j]? = some b) (hji : j ≠ i) (k : Key) :
    lookup (node { l with data := l.data.eraseIdx i } (cs.eraseIdx i)) (b :: k)
      = lookup (node l cs) (b :: k) := by
  have hjlt := (hl.lt_iff hcompr).mpr (List.getElem?_eq_some_iff.mp hj).choose
  have hd := List.getElem?_eq_getElem hjlt
  rw [lookup_plain_of_getElem? hl hcompr hj hd]
  rcases Nat.lt_or_gt_of_ne hji with hlt | hgt
  · refine lookup_plain_of_getElem? hl' hcompr (i := j) ?_ ?_ k
    · exact (List.getElem?_eraseIdx_of_lt hlt).trans hj
    · exact (List.getElem?_eraseIdx_of_lt hlt).trans hd
  · obtain ⟨j, rfl⟩ : ∃ j', j = j' + 1 := ⟨j - 1, by omega⟩
    refine lookup_plain_of_getElem? hl' hcompr (i := j) ?_ ?_ k
    · exact (List.getElem?_eraseIdx_of_ge (by omega)).trans hj
    · exact (List.getElem?_eraseIdx_of_ge (by omega)).trans hd

/-- The map without the strings that go through the child. -/
theorem lookup_unlink (hn : ShapeOk n.label n.children.length) (hc : n.children[i]? = some c)
    (k : Key) :
    lookup (unlink n i) k = if edge n.label i <+: k then none else lookup n k := by
  have hedge := edge_ne_nil hn hc
  by_cases hk : k = []
  · subst hk
    rw [if_neg (by simpa using hedge)]
    change own _ = own _
    cases hcompr : n.label.iscompr with
    | true => exact (unlink_compr hcompr i).2.2.2.2
    | false =>
      rw [unlink_plain hcompr]
      rfl
  cases hcompr : n.label.iscompr with
  | true =>
    obtain ⟨hcs, -, hplain, -, -⟩ := unlink_compr hcompr i
    rw [← node_eta (unlink n i), hcs, lookup_childless hplain hk]
    rw [edge_compr hcompr] at hedge ⊢
    obtain ⟨c', hc'⟩ := List.length_eq_one_iff.mp (hn.compr hcompr).2
    have := lookup_compr (c := c') hcompr hedge hk
    rw [← hc', node_eta] at this
    rw [this]
    split_ifs <;> rfl
  | false =>
    obtain ⟨b, k, rfl⟩ := List.exists_cons_of_ne_nil hk
    have hi : i < n.children.length := (List.getElem?_eq_some_iff.mp hc).choose
    have hi' := (hn.lt_iff hcompr).mp hi
    have hshape' := shapeOk_unlink hn hcompr hi
    rw [edge_plain hcompr hi', unlink_plain hcompr]
    have hcons : ([n.label.data[i]] <+: b :: k) ↔ b = n.label.data[i] := by
      simp [List.cons_prefix_cons, eq_comm]
    simp only [hcons]
    have hnodup := hn.nodup hcompr
    by_cases hb : b = n.label.data[i]
    · -- The erased edge does not come back at another index.
      rw [if_pos hb]
      refine lookup_plain_of_not_mem hshape' hcompr (fun hmem => ?_) k
      obtain ⟨j, hji, hj⟩ := List.mem_eraseIdx_iff_getElem?.mp hmem
      obtain ⟨hjlt, hjb⟩ := List.getElem?_eq_some_iff.mp hj
      exact hji ((hnodup.getElem_inj_iff).mp (hjb.trans hb))
    rw [if_neg hb]
    by_cases hmem : b ∈ n.label.data
    · obtain ⟨j, hj⟩ := List.getElem?_of_mem hmem
      have hji : j ≠ i := by
        rintro rfl
        exact hb (List.getElem?_eq_some_iff.mp hj).choose_spec.symm
      have := lookup_eraseIdx hn hcompr hshape' hj hji k
      rwa [node_eta] at this
    · have := lookup_plain_of_not_mem hn hcompr hmem k
      rw [node_eta] at this
      rw [this]
      exact lookup_plain_of_not_mem hshape' hcompr
        (fun h => hmem (List.mem_of_mem_eraseIdx h)) k

theorem nodesOk_unlink (hn : NodesOk n) (hc : n.children[i]? = some c) : NodesOk (unlink n i) := by
  have hi : i < n.children.length := (List.getElem?_eq_some_iff.mp hc).choose
  have hshape := hn.shapes.shape
  cases hcompr : n.label.iscompr with
  | true =>
    obtain ⟨hcs, hdata, hplain, -, -⟩ := unlink_compr hcompr i
    rw [← node_eta (unlink n i), hcs]
    refine nodesOk_node.mpr ⟨⟨fun h => ?_, fun _ => ?_, fun _ => ?_⟩, by simp⟩
    · rw [hplain] at h
      cases h
    · rw [hdata]
      rfl
    · rw [hdata]
      exact List.Pairwise.nil
  | false =>
    rw [unlink_plain hcompr]
    refine nodesOk_node.mpr ⟨shapeOk_unlink hshape hcompr hi, fun d hd => ?_⟩
    have hnode := hn
    rw [← node_eta n] at hnode
    exact (nodesOk_node.mp hnode).2 d (List.mem_of_mem_eraseIdx hd)

theorem count_unlink (hn : ShapeOk n.label n.children.length) (hc : n.children[i]? = some c) :
    nodeCount (unlink n i) + nodeCount c = nodeCount n ∧
      keyCount (unlink n i) + keyCount c = keyCount n := by
  obtain ⟨hi, hci⟩ := List.getElem?_eq_some_iff.mp hc
  have h1 := nodeCount_node n.label n.children
  have h2 := keyCount_node n.label n.children
  rw [node_eta] at h1 h2
  cases hcompr : n.label.iscompr with
  | true =>
    obtain ⟨hcs, -, -, hkey, -⟩ := unlink_compr hcompr i
    obtain ⟨c', hc'⟩ := List.length_eq_one_iff.mp (hn.compr hcompr).2
    rw [hc'] at hc h1 h2
    obtain rfl : c' = c := by
      have hi0 : i = 0 := by simpa using (List.getElem?_eq_some_iff.mp hc).choose
      simpa [hi0] using hc
    rw [h1, h2, ← node_eta (unlink n i), hcs, nodeCount_node, keyCount_node, hkey]
    simp
  | false =>
    have h3 := List.CommMonoid.add_sum_eraseIdx (l := n.children.map nodeCount)
      (by simpa using hi)
    have h4 := List.CommMonoid.add_sum_eraseIdx (l := n.children.map keyCount)
      (by simpa using hi)
    rw [List.getElem_map, hci, List.eraseIdx_map] at h3 h4
    rw [unlink_plain hcompr, nodeCount_node, keyCount_node]
    constructor
    · omega
    · simp only
      omega

end Unlink

/-- `raxRemoveChild` of a child that is there. -/
theorem raxRemoveChild_eq (hc : n.children[i]? = some c) (ptr : NodePtr) (a : Allocs) :
    raxRemoveChild n ptr (ptr ++ [i]) a = some (unlink n i,
      !n.label.iscompr && decide (a.head = .moved), if n.label.iscompr then a else a.tail) := by
  rw [raxRemoveChild, unlink, childIndex_concat hc]
  cases n.label.iscompr <;> simp

/-! ### The walk up -/

/-- How many parents the walk up takes from the stack, given the ancestors of
the removed leaf. -/
def cleanupPops (head : RaxNode V) : List NodePtr → ℕ
  | [] => 0
  | ptr :: above => if endsAt head ptr then 1 else cleanupPops head above + 1

/-- Where the walk up from `p` stops: at the position `q`, after freeing the
branch below its `i`-th child. -/
theorem cleanupLoop_spec (hn : t.nodeAt p = some n) (hp : p ≠ [])
    (hstack : (ancestors p).take (cleanupPops t (ancestors p)) <+: stack) (child : Option NodePtr)
    (numnodes : ℕ) :
    ∃ q i r, p = q ++ i :: r ∧ cleanupPops t (ancestors p) = r.length + 1 ∧
      cleanupLoop t stack p child numnodes
        = some ⟨q, some (q ++ [i]), stack.drop (r.length + 1), numnodes - (r.length + 1)⟩ ∧
      (q = [] ∨ endsAt t q = true) ∧
      ∀ c, t.nodeAt (q ++ [i]) = some c → Thin c r := by
  induction p using List.reverseRecOn generalizing n stack child numnodes with
  | nil => exact absurd rfl hp
  | append_singleton p j ih =>
    obtain ⟨m, hm, hj⟩ := exists_nodeAt_of_append hn
    have hends : endsAt t p = endsChain m.label := by rw [endsAt, hm]; rfl
    rw [ancestors_concat, cleanupPops, hends] at hstack ⊢
    cases hend : endsChain m.label with
    | true =>
      obtain ⟨above, rfl⟩ := hstack
      refine ⟨p, j, [], by simp, rfl, ?_, .inr (hends.trans hend), fun c _ => thin_nil c⟩
      simp [cleanupLoop, hm, hend]
    | false =>
      rw [hend, if_neg (by simp), List.take_succ_cons] at hstack
      obtain ⟨above, rfl⟩ := hstack
      rw [List.cons_append, cleanupLoop, if_neg (by simp), hm, Option.bind_some, hend,
        if_neg (by simp)]
      by_cases hp0 : p = []
      · -- The head is given back too, or rather becomes empty.
        subst hp0
        refine ⟨[], j, [], rfl, rfl, ?_, .inl rfl, fun c _ => thin_nil c⟩
        cases above <;> rfl
      obtain ⟨q, i, r, rfl, hpops, hloop, hstop, hthin⟩ :=
        ih hm hp0 (List.prefix_append _ above) (some (p ++ [j])) (numnodes - 1)
      refine ⟨q, i, r ++ [j], by simp, ?_, ?_, hstop, fun c hc => (hthin c hc).concat ?_ hend⟩
      · rw [hpops, List.length_append, List.length_singleton]
      · rw [if_neg (by simp), hloop, List.length_append, List.length_singleton,
          List.drop_succ_cons, Nat.sub_sub, Nat.add_comm 1]
      · rw [show q ++ i :: r = q ++ [i] ++ r by simp, nodeAt_append, hc] at hm
        exact hm

theorem endsAt_replace (m : RaxNode V)
    (hn : t.nodeAt p = some n) (hq : q <+: p) (hne : q ≠ p) :
    endsAt (t.replace p m) q = endsAt t q := by
  obtain ⟨_ | ⟨i, r⟩, rfl⟩ := hq
  · simp at hne
  obtain ⟨k, hk, -⟩ := exists_nodeAt_of_append hn
  rw [endsAt, endsAt, nodeAt_replace_above _ _ hk, hk, Option.map_some, Option.map_some,
    label_replace_cons]

/-- The walk up does not see the change at the leaf. -/
theorem cleanupPops_replace (m : RaxNode V) (hn : t.nodeAt p = some n) :
    cleanupPops (t.replace p m) (ancestors p) = cleanupPops t (ancestors p) := by
  have hall : ∀ l : List NodePtr, (∀ q ∈ l, q <+: p ∧ q ≠ p) →
      cleanupPops (t.replace p m) l = cleanupPops t l := by
    intro l hl
    induction l with
    | nil => rfl
    | cons q l ih =>
      obtain ⟨hq, hne⟩ := hl q (by simp)
      rw [cleanupPops, cleanupPops, endsAt_replace m hn hq hne,
        ih fun q hq => hl q (List.mem_cons_of_mem _ hq)]
  exact hall _ fun q => mem_ancestors

theorem Thin.of_replace {m x : RaxNode V} (h : Thin (n.replace r x) r) (hm : n.nodeAt r = some m) :
    Thin n r := by
  intro q hq hne
  obtain ⟨k, hk, hend⟩ := h q hq hne
  obtain ⟨_ | ⟨i, r⟩, rfl⟩ := hq
  · simp at hne
  obtain ⟨k', hk', -⟩ := exists_nodeAt_of_append hm
  rw [nodeAt_replace_above _ _ hk', Option.some.injEq] at hk
  refine ⟨k', hk', ?_⟩
  rwa [← hk, label_replace_cons] at hend

/-! ### Removing a leaf -/

/-- `r` is the tree `t` without the key `s`. -/
structure Removed (t : RaxTree V) (s : Key) (r : RaxTree V) : Prop where
  ok : RaxOk r
  updates : Updates t.head r.head s none
  numele : r.numele + 1 = t.numele

/-- The parents that the removal of the leaf at `p` takes from the stack are
there: those of the walk up and, if the node that loses its child is moved by
`rax_realloc`, the next one. -/
structure ParentsKnown (t : RaxNode V) (p : NodePtr) (stack : List NodePtr) (a : Allocs) :
    Prop where
  popped : (ancestors p).take (cleanupPops t (ancestors p)) <+: stack
  relinked : a.head = .moved → ∀ q above n,
    (ancestors p).drop (cleanupPops t (ancestors p) - 1) = q :: above → t.nodeAt q = some n →
    n.label.iscompr = false →
    (stack.drop (cleanupPops t (ancestors p))).head? = above.head?

/-- With the whole stack every parent is known. -/
theorem parentsKnown_ancestors (t : RaxNode V) (p : NodePtr) (a : Allocs) :
    ParentsKnown t p (ancestors p) a := by
  refine ⟨List.take_prefix _ _, fun _ q above n hq _ _ => ?_⟩
  obtain ⟨k, hk⟩ : ∃ k, cleanupPops t (ancestors p) = k + 1 := by
    rcases hp : ancestors p with _ | ⟨x, l⟩
    · rw [hp] at hq
      simp at hq
    · rw [cleanupPops]
      split_ifs
      · exact ⟨0, rfl⟩
      · exact ⟨_, rfl⟩
  rw [hk, Nat.add_sub_cancel] at hq
  rw [hk, ← List.tail_drop, hq]
  rfl

theorem count_leaf (hn : ShapeOk n.label n.children.length) (hdata : n.label.data = [])
    (hkey : n.label.iskey = true) :
    nodeCount n = 1 ∧ keyCount n = 1 := by
  have hcs : n.children = [] := List.length_eq_zero_iff.mp (hn.childless hdata).2
  rw [← node_eta n, hcs, nodeCount_node, keyCount_node, hkey]
  simp

/-- A node that ends a chain still has a purpose without one of its children. -/
theorem leafOk_unlink (hn : ShapeOk n.label n.children.length)
    (hc : n.children[i]? = some c) (hend : endsChain n.label = true) : LeafOk (unlink n i) := by
  intro hdata
  obtain ⟨-, hkey⟩ := unlink_label n i
  rw [hkey]
  cases hk : n.label.iskey with
  | true => rfl
  | false =>
    have hi : i < n.children.length := (List.getElem?_eq_some_iff.mp hc).choose
    simp only [endsChain, hk, Bool.false_or, Bool.and_eq_true, Bool.not_eq_eq_eq_not,
      Bool.not_true, bne_iff_ne, ne_eq] at hend
    obtain ⟨hplain, hsize⟩ := hend
    have hlen := hn.plain hplain
    rw [unlink_plain hplain, label_node] at hdata
    have hzero := congrArg List.length hdata
    simp only [List.length_nil] at hzero
    rw [List.length_eraseIdx_of_lt (by omega)] at hzero
    rw [RaxHdr.size] at hsize
    omega

/-- Unlinking a branch that holds one key only. -/
theorem removed_unlink {t : RaxTree V} (ht : RaxOk t)
    (hn : t.head.nodeAt q = some n) (hc : n.children[i]? = some c)
    (hleaf : c.nodeAt r = some leaf) (hthin : Thin c r) (hdata : leaf.label.data = [])
    (hkey : leaf.label.iskey = true) (hstop : q = [] ∨ endsAt t.head q = true) :
    Removed t (spell t.head (q ++ i :: r)) { t with
      head := t.head.replace q (unlink n i)
      numele := t.numele - 1
      numnodes := t.numnodes - (r.length + 1) } := by
  have hnok : NodesOk n := ht.nodes.nodeAt hn
  have hshape := hnok.shapes.shape
  have hcok : ShapesOk c := hnok.shapes.child (List.mem_of_getElem? hc)
  obtain ⟨hnodes, hkeys⟩ := count_unlink hshape hc
  obtain ⟨hcnodes, hckeys⟩ := thin_count hcok hthin hleaf
  obtain ⟨hlnodes, hlkeys⟩ := count_leaf (hcok.shapeAt hleaf) hdata hkey
  have h1 := nodeCount_replace (unlink n i) hn
  have h2 := keyCount_replace (unlink n i) hn
  have h3 := ht.numele
  have h4 := ht.numnodes
  refine ⟨⟨?_, ?_, ?_⟩, ?_, ?_⟩
  · refine ht.nodes.replace hn (nodesOk_unlink hnok hc) fun hq => ?_
    exact leafOk_unlink hshape hc (by simpa [endsAt, hn] using hstop.resolve_left hq)
  · simp only
    omega
  · simp only
    omega
  · have hupdates : Updates n (unlink n i) (edge n.label i ++ spell c r) none := by
      intro k
      rw [lookup_unlink hshape hc]
      by_cases hk : edge n.label i <+: k
      · obtain ⟨k, rfl⟩ := hk
        rw [if_pos (List.prefix_append _ _), lookup_edge hshape hc,
          thin_lookup hcok hthin hleaf hdata]
        by_cases hk : k = spell c r
        · rw [if_pos (by rw [hk])]
        · rw [if_neg (by simpa using hk), if_neg hk]
      · rw [if_neg hk, if_neg]
        rintro rfl
        exact hk (List.prefix_append _ _)
    rw [spell_append _ hn, spell_cons r hc]
    exact hupdates.replace ht.nodes.shapes hn
  · simp only
    omega

/-- Clearing the key of the head, or of a node that has children. -/
theorem removed_clearKey {t : RaxTree V} (ht : RaxOk t)
    (hn : t.head.nodeAt p = some n) (hdata : p ≠ [] → n.label.data ≠ [])
    (hkey : n.label.iskey = true) :
    Removed t (spell t.head p) { t with
      head := t.head.replace p (clearKey n)
      numele := t.numele - 1 } := by
  have h1 := nodeCount_clearKey n
  have h2 := keyCount_clearKey hkey
  have h3 := nodeCount_replace (clearKey n) hn
  have h4 := keyCount_replace (clearKey n) hn
  have h5 := ht.numele
  have h6 := ht.numnodes
  have h7 := (updates_clearKey n).replace ht.nodes.shapes hn
  rw [List.append_nil] at h7
  refine ⟨⟨?_, ?_, ?_⟩, h7, ?_⟩
  · exact ht.nodes.replace hn (nodesOk_clearKey (ht.nodes.nodeAt hn)) fun hp h0 =>
      absurd h0 (hdata hp)
  · simp only
    omega
  · simp only
    omega
  · simp only
    omega

/-- Above the head there is nothing to walk up to. -/
theorem removeLeaf_head (t : RaxTree V) (ts : RaxStack) (a : Allocs) :
    removeLeaf t [] ts a = some t := by
  rw [removeLeaf]
  cases ts.stack <;> rfl

theorem relink_eq {head : RaxNode V} (hn : head.nodeAt q = some n)
    (new : RaxNode V) (moved : Bool) (h : moved = true → stack.head? = (ancestors q).head?) :
    relink head new q moved stack = some (head.replace q new) := by
  cases moved with
  | false => rfl
  | true =>
    rw [relink, if_pos rfl, h rfl]
    rcases List.eq_nil_or_concat' q with rfl | ⟨q, j, rfl⟩
    · simp
    · obtain ⟨m, hm, hj⟩ := exists_nodeAt_of_append hn
      obtain ⟨c, hc, -⟩ := nodeAt_cons_eq_some.mp hj
      rw [ancestors_concat]
      simp only [List.head?_cons, hm, Option.bind_some, childIndex_concat hc, Option.map_some]

section Leaf

variable {t : RaxTree V} {p : NodePtr} {n : RaxNode V} {ts : RaxStack} {a : Allocs} {s : Key}
  {x : Option (RaxTree V)}

/-- The tree after the removal of a leaf below the head, up to the recompression. -/
theorem removeLeaf_eq (hn : t.head.nodeAt p = some n) (hp : p ≠ [])
    (hknown : ParentsKnown t.head p ts.stack a)
    (hcomplete : ts.oom = false → ts.stack = ancestors p) :
    ∃ q i r m c b, p = q ++ i :: r ∧ t.head.nodeAt q = some m ∧ m.children[i]? = some c ∧
      c.nodeAt r = some n ∧ Thin c r ∧ (q = [] ∨ endsAt t.head q = true) ∧ Used a b ∧
      removeLeaf { t with
          head := t.head.replace p (clearKey n)
          numele := t.numele - 1 } p ts a =
        let t' : RaxTree V := { t with
          head := t.head.replace q (unlink m i)
          numele := t.numele - 1
          numnodes := t.numnodes - (r.length + 1) }
        if (unlink m i).label.size = 1 ∧ (unlink m i).label.iskey = false ∧ ts.oom = false then
          recompress t' q (ancestors q) b
        else some t' := by
  have hpopped := hknown.popped
  rw [← cleanupPops_replace (clearKey n) hn] at hpopped
  obtain ⟨q, i, r, rfl, hpops, hloop, hstop, hthin⟩ :=
    cleanupLoop_spec (nodeAt_replace (clearKey n) hn) hp hpopped none t.numnodes
  rw [cleanupPops_replace (clearKey n) hn] at hpops
  obtain ⟨m, hm, hir⟩ := exists_nodeAt_of_append hn
  obtain ⟨c, hc, hr⟩ := nodeAt_cons_eq_some.mp hir
  have hm' := nodeAt_replace_above (i :: r) (clearKey n) hm
  have hc' := getElem?_children_replace r (clearKey n) hc
  have hthin' : Thin c r := by
    refine Thin.of_replace (hthin (c.replace r (clearKey n)) ?_) hr
    rw [nodeAt_append, hm']
    exact nodeAt_cons_eq_some.mpr ⟨_, hc', nodeAt_nil _⟩
  have hstop' : q = [] ∨ endsAt t.head q = true := by
    rwa [endsAt_replace _ hn (List.prefix_append _ _) (by simp)] at hstop
  -- The parent to relink is the one above `q`.
  have habove : (ancestors (q ++ i :: r)).drop r.length = q :: ancestors q := by
    rw [show q ++ i :: r = (q ++ [i]) ++ r by simp, ancestors_append, ancestors_concat]
  have hrelink : (!m.label.iscompr && decide (a.head = .moved)) = true →
      (ts.stack.drop (r.length + 1)).head? = (ancestors q).head? := by
    intro hmoved
    simp only [Bool.and_eq_true, Bool.not_eq_eq_eq_not, Bool.not_true, decide_eq_true_eq] at hmoved
    have := hknown.relinked hmoved.2 q (ancestors q) m
    rw [hpops, Nat.add_sub_cancel] at this
    exact this habove hm hmoved.1
  have hhead : (t.head.replace (q ++ i :: r) (clearKey n)).replace q (unlink m i)
      = t.head.replace q (unlink m i) := by
    rw [replace_append _ _ hm, replace_replace]
  refine ⟨q, i, r, m, c, if m.label.iscompr then a else a.tail, rfl, hm, hc, hr, hthin', hstop', ?_,
    ?_⟩
  · split_ifs
    · exact Used.refl a
    · exact Used.tail a
  · simp only [removeLeaf, hloop, Option.bind_eq_bind, Option.bind_some, hm',
      raxRemoveChild_eq hc', unlink_replace, label_replace_cons, relink_eq hm' _ _ hrelink, hhead]
    by_cases hcond : (unlink m i).label.size = 1 ∧ (unlink m i).label.iskey = false ∧
        ts.oom = false
    · rw [if_pos hcond, if_pos hcond, hcomplete hcond.2.2,
        show r.length + 1 = (i :: r).length from rfl, ancestors_append]
    · rw [if_neg hcond, if_neg hcond]

/-- No key is longer than the field `size` can hold. -/
def KeysFit (t : RaxNode V) : Prop :=
  ∀ k d, lookup t k = some d → k.length ≤ raxNodeMaxSize

theorem KeysFit.of_updates {m m' : RaxNode V} (h : KeysFit m) (hup : Updates m m' s none) :
    KeysFit m' := by
  intro k d hk
  rw [hup k] at hk
  split_ifs at hk
  exact h k d hk

theorem KeysFit.updates {m m' : RaxNode V} {d : Option (Option V)} (h : KeysFit m)
    (hs : s.length ≤ raxNodeMaxSize) (hup : Updates m m' s d) : KeysFit m' := by
  intro k x hk
  rw [hup k] at hk
  split_ifs at hk with hks
  · rwa [hks]
  · exact h k x hk

/-- The recompression after a removal. -/
theorem Removed.recompress {r : RaxTree V} (h : Removed t s r) (hfit : KeysFit t.head)
    {q : NodePtr} {m : RaxNode V} (hm : r.head.nodeAt q = some m)
    (hlink : endsChain m.label = false) (b : Allocs) :
    ∃ r', Rax.recompress r q (ancestors q) b = some r' ∧ Removed t s r' := by
  obtain ⟨r', hr', hok, hnumele, hlookup⟩ :=
    recompress_spec h.ok (hfit.of_updates h.updates) hm hlink b
  refine ⟨r', hr', hok, fun k => ?_, by rw [hnumele, h.numele]⟩
  rw [hlookup, h.updates k]

/-- What is left to do when the key is out of the tree: nothing, or the merging
of the chain through some link. -/
inductive RemoveStages (t : RaxTree V) (s : Key) (a : Allocs) : Option (RaxTree V) → Prop
  | done {r : RaxTree V} (h : Removed t s r) : RemoveStages t s a (some r)
  | merge {r : RaxTree V} {q : NodePtr} {m : RaxNode V} {b : Allocs} (h : Removed t s r)
      (hm : r.head.nodeAt q = some m) (hlink : endsChain m.label = false) (hused : Used a b) :
      RemoveStages t s a (Rax.recompress r q (ancestors q) b)

/-- With keys that fit into a node the merging does no harm. -/
theorem RemoveStages.spec (h : RemoveStages t s a x)
    (hfit : KeysFit t.head) : ∃ r, x = some r ∧ Removed t s r := by
  cases h with
  | done h => exact ⟨_, rfl, h⟩
  | merge h hm hlink _ => exact h.recompress hfit hm hlink _

theorem RemoveStages.used {b : Allocs} (hused : Used a b)
    (h : RemoveStages t s b x) : RemoveStages t s a x := by
  cases h with
  | done h => exact .done h
  | merge h hm hlink hused' => exact .merge h hm hlink (hused.trans hused')

theorem removeLeaf_stages (ht : RaxOk t) (hn : t.head.nodeAt p = some n)
    (hdata : n.label.data = []) (hkey : n.label.iskey = true)
    (hknown : ParentsKnown t.head p ts.stack a)
    (hcomplete : ts.oom = false → ts.stack = ancestors p) :
    RemoveStages t (spell t.head p) a (removeLeaf { t with
        head := t.head.replace p (clearKey n)
        numele := t.numele - 1 } p ts a) := by
  by_cases hp : p = []
  · -- The head itself: it stays.
    subst hp
    rw [removeLeaf_head]
    exact .done (removed_clearKey ht hn (fun hp => absurd rfl hp) hkey)
  obtain ⟨q, i, r, m, c, b, rfl, hm, hc, hr, hthin, hstop, hused, heq⟩ :=
    removeLeaf_eq hn hp hknown hcomplete
  rw [heq]
  have hrem := removed_unlink ht hm hc hr hthin hdata hkey hstop
  split_ifs with hcond
  · refine .merge hrem (nodeAt_replace _ hm) ?_ hused
    obtain ⟨hplain, -⟩ := unlink_label m i
    simp [endsChain, hplain, hcond.1, hcond.2.1]
  · exact .done hrem

end Leaf

/-! ### The whole removal -/

section Remove

variable {t : RaxTree V} {s : Key} {a : Allocs} {w : Walk V} {ts : RaxStack}

/-- `raxRemove` of a key that is there. -/
theorem raxRemove_eq (hw : raxLowWalk t.head s (some raxStackInit) a = some w)
    (hts : w.ts = some ts) (hm : w.misses s = false) :
    raxRemove t s a =
      (let t' : RaxTree V := { t with
          head := t.head.replace w.ptr (clearKey w.h)
          numele := t.numele - 1 }
        if w.h.label.size = 0 then removeLeaf t' w.ptr ts w.allocs
        else if w.h.label.size = 1 ∧ ts.oom = false then
          recompress t' w.ptr ts.stack w.allocs
        else some t').map fun r => ⟨r, 1, some (raxGetData w.h.label)⟩ := by
  simp only [raxRemove, hw, hm, hts, Option.bind_eq_bind, Option.bind_some, Bool.false_eq_true,
    if_false]
  split_ifs
  · exact Option.map_eq_bind.symm
  · exact Option.map_eq_bind.symm
  · rfl

/-- The parents needed for a leaf are on the stack that `raxLowWalk` returns. -/
def StackSuffices (t : RaxNode V) (s : Key) (a : Allocs) : Prop :=
  ∀ w ts, raxLowWalk t s (some raxStackInit) a = some w → w.ts = some ts →
    w.misses s = false → w.h.label.size = 0 → ParentsKnown t w.ptr ts.stack w.allocs

/-- The stack after the walk. -/
theorem WalkSpec.stack_eq {t : RaxNode V} (h : WalkSpec t s (some raxStackInit) a w) :
    ∃ ts, w.ts = some ts ∧ Used a w.allocs ∧ (ts.oom = false → ts.stack = ancestors w.ptr) ∧
      (NoFail a → ts.oom = false) := by
  obtain ⟨ts, b, hpush, hused, hstack, hoom⟩ := pushAll_spec raxStackInit a (properPrefixes w.ptr)
  have := h.stack
  rw [hpush] at this
  obtain ⟨h1, h2⟩ := Prod.mk.inj this
  refine ⟨ts, h1, by rw [h2]; exact hused, fun h => ?_, hoom⟩
  rw [(hstack h).2]
  exact List.append_nil _

theorem NoFail.stackSuffices {t : RaxNode V} (ht : ShapesOk t) (ha : NoFail a) :
    StackSuffices t s a := by
  intro w ts hw hts _ _
  obtain ⟨ts', hts', -, hcomplete, hoom⟩ := (WalkSpec.of_eq ht hw).stack_eq
  obtain rfl : ts' = ts := Option.some.inj (hts'.symm.trans hts)
  rw [hcomplete (hoom ha)]
  exact parentsKnown_ancestors t w.ptr w.allocs

/-- The stages of a removal.  The stack has to suffice. -/
theorem raxRemove_stages (ht : RaxOk t) (hstack : StackSuffices t.head s a) :
    (lookup t.head s = none ∧ raxRemove t s a = some ⟨t, 0, none⟩) ∨
    ∃ d x, lookup t.head s = some d ∧ RemoveStages t s a x ∧
      raxRemove t s a = x.map fun r => ⟨r, 1, some d⟩ := by
  obtain ⟨w, hw, h⟩ := raxLowWalk_spec ht.nodes.shapes s (some raxStackInit) a
  cases hm : w.misses s with
  | true =>
    refine .inl ⟨(h.misses_iff ht.nodes.shapes).mp hm, ?_⟩
    simp [raxRemove, hw, hm]
  | false =>
    obtain ⟨ts, hts, hused, hcomplete, -⟩ := h.stack_eq
    obtain ⟨hi, hj, hkey, hspell⟩ := h.of_not_misses hm
    have hlookup := h.lookup_of_at ht.nodes.shapes hi hj
    rw [hkey, if_pos rfl] at hlookup
    refine .inr ⟨raxGetData w.h.label, _, hlookup, ?_, raxRemove_eq hw hts hm⟩
    by_cases hsize : w.h.label.size = 0
    · have hstages := removeLeaf_stages ht h.nodeAt (List.length_eq_zero_iff.mp hsize)
        hkey (hstack w ts hw hts hm hsize) hcomplete
      rw [hspell] at hstages
      rw [if_pos hsize]
      exact hstages.used hused
    have hdata : w.h.label.data ≠ [] := fun h0 => hsize (List.length_eq_zero_iff.mpr h0)
    have hrem := removed_clearKey ht h.nodeAt (fun _ => hdata) hkey
    rw [hspell] at hrem
    rw [if_neg hsize]
    by_cases hone : w.h.label.size = 1 ∧ ts.oom = false
    · have hplain := (ht.nodes.shapes.shapeAt h.nodeAt).plain_of_lt (by omega)
      rw [if_pos hone, hcomplete hone.2]
      exact .merge hrem (nodeAt_replace (clearKey w.h) h.nodeAt)
        (by simpa [endsChain, clearKey, hplain, RaxHdr.size] using hone.1) hused
    · rw [if_neg hone]
      exact .done hrem

/-- **Removal.**  If the stack suffices, `raxRemove` is defined, deletes exactly
the key and keeps the tree well formed and its counters right. -/
theorem raxRemove_spec (ht : RaxOk t) (hfit : KeysFit t.head) (hstack : StackSuffices t.head s a) :
    (lookup t.head s = none ∧ raxRemove t s a = some ⟨t, 0, none⟩) ∨
    ∃ d r, lookup t.head s = some d ∧ raxRemove t s a = some ⟨r, 1, some d⟩ ∧ Removed t s r := by
  rcases raxRemove_stages ht hstack with hnone | ⟨d, x, hd, hstages, heq⟩
  · exact .inl hnone
  · obtain ⟨r, rfl, hrem⟩ := hstages.spec hfit
    exact .inr ⟨d, r, hd, heq, hrem⟩

end Remove

end Rax
