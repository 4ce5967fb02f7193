/-
Merging a chain of single-child nodes (the recompression at the end of
`raxRemove` of rax.c).

The recompression climbs to the upper end of the chain, scans it once to find
the length of the merged string and a second time to copy it.  Only the first
scan minds `RAX_NODE_MAX_SIZE`; the two agree as long as no key is longer than
that, because below the chain there is always a key (`exists_lookup`).

* `MergeSpec` — the second scan collects one string over the first node that has
  to stay, with the same map; its length is what the first scan predicted
  (`chain_spec`);
* `climb_spec` — the upper end of the chain and its parent;
* `recompress_spec` — the recompression changes neither the map nor the counts.
-/
import DecomposeRedis.RaxInsertSpec

open RoseTree

namespace Rax

variable {V : Type}

/-! ### Links of a chain -/

variable {n : RaxNode V} {t : RaxTree V} {p q : NodePtr} {m : Merged V} {bytes : List UInt8}

/-- A node at which a scan goes on has one child and is no key. -/
theorem link_of_not_endsChain (hn : ShapeOk n.label n.children.length)
    (h : endsChain n.label = false) :
    n.label.iskey = false ∧ OneChild n.label ∧ ∃ c, n = node n.label [c] := by
  obtain ⟨l, cs⟩ := n
  simp only [label_node, children_node] at hn h ⊢
  simp only [endsChain, Bool.or_eq_false_iff, Bool.and_eq_false_iff, Bool.not_eq_eq_eq_not,
    Bool.not_false, bne_eq_false_iff_eq] at h
  obtain ⟨hkey, hone⟩ := h
  cases hc : l.iscompr with
  | true =>
    obtain ⟨hlen, hcs⟩ := hn.compr hc
    obtain ⟨c, rfl⟩ := List.length_eq_one_iff.mp hcs
    exact ⟨hkey, ⟨List.ne_nil_of_length_pos (by omega), fun h => by simp [hc] at h⟩, c, rfl⟩
  | false =>
    have hsize : l.data.length = 1 := by simpa [hc, RaxHdr.size] using hone
    obtain ⟨c, rfl⟩ := List.length_eq_one_iff.mp ((hn.plain hc).trans hsize)
    exact ⟨hkey, ⟨List.ne_nil_of_length_pos (by omega), fun _ => hsize⟩, c, rfl⟩

/-- The node at a position ends the chain below it. -/
def endsAt (head : RaxNode V) (ptr : NodePtr) : Bool :=
  ((head.nodeAt ptr).map fun n => endsChain n.label).getD true

/-- From `n` down to the position `r` there are only links. -/
def Thin (n : RaxNode V) (r : NodePtr) : Prop :=
  ∀ q, q <+: r → q ≠ r → ∃ m, n.nodeAt q = some m ∧ endsChain m.label = false

theorem thin_nil (n : RaxNode V) : Thin n [] :=
  fun _ hq hne => absurd (List.prefix_nil.mp hq) hne

theorem Thin.cons {i : ℕ} {r : NodePtr} (h : Thin n (i :: r))
    (hn : ShapesOk n) {leaf : RaxNode V} (hleaf : n.nodeAt (i :: r) = some leaf) :
    i = 0 ∧ n.label.iskey = false ∧ OneChild n.label ∧
      ∃ c, n = node n.label [c] ∧ c.nodeAt r = some leaf ∧ Thin c r := by
  obtain ⟨m, hm, hend⟩ := h [] List.nil_prefix (by simp)
  obtain rfl : n = m := by simpa using hm
  obtain ⟨hkey, hone, c, hc⟩ := link_of_not_endsChain hn.shape hend
  obtain ⟨c', hc', hr⟩ := nodeAt_cons_eq_some.mp hleaf
  rw [hc, children_node] at hc'
  have hi : i = 0 := by
    have := (List.getElem?_eq_some_iff.mp hc').choose
    simpa using this
  subst hi
  obtain rfl : c = c' := by simpa using hc'
  refine ⟨rfl, hkey, hone, c, hc, hr, fun q hq hne => ?_⟩
  obtain ⟨m, hm, hend⟩ := h (0 :: q) (List.cons_prefix_cons.mpr ⟨rfl, hq⟩) (by simpa using hne)
  refine ⟨m, ?_, hend⟩
  rw [hc, nodeAt_cons] at hm
  exact hm

theorem Thin.concat {m : RaxNode V} {r : NodePtr} (h : Thin n r) (hm : n.nodeAt r = some m)
    (hend : endsChain m.label = false) {j : ℕ} : Thin n (r ++ [j]) := by
  intro q hq hne
  rcases List.prefix_concat_iff.mp hq with rfl | hq
  · exact absurd rfl hne
  · by_cases hqr : q = r
    · exact ⟨m, by rw [hqr]; exact hm, hend⟩
    · exact h q hq hqr

/-- Below every well-formed node there is a key. -/
theorem exists_lookup (hn : NodesOk n) (hleaf : LeafOk n) :
    ∃ k d, lookup n k = some d := by
  induction n using RoseTree.induct with
  | node l cs ih =>
    obtain ⟨hshape, hcs⟩ := nodesOk_node.mp hn
    rcases cs with _ | ⟨c, cs⟩
    · have hdata : l.data = [] := by
        cases hc : l.iscompr with
        | true =>
          have := (hshape.compr hc).2
          simp at this
        | false => exact List.length_eq_zero_iff.mp (hshape.plain hc).symm
      refine ⟨[], raxGetData l, ?_⟩
      rw [lookup_nil]
      exact if_pos (hleaf hdata)
    · obtain ⟨hcleaf, hcok⟩ := hcs c (by simp)
      obtain ⟨k, d, hk⟩ := ih c (by simp) hcok hcleaf
      exact ⟨edge l 0 ++ k, d, (lookup_edge (n := node l (c :: cs)) hshape rfl k).trans hk⟩

/-! ### The two scans -/

/-- What the second scan collects from the chain that starts at `n`. -/
structure MergeSpec (n : RaxNode V) (m : Merged V) : Prop where
  lookup : ∀ k, lookup (node (stringNode false false m.bytes) [m.rest]) k = lookup n k
  ends : endsChain m.rest.label = true
  nodes : NodesOk m.rest
  leaf : LeafOk m.rest
  bytes : m.bytes ≠ []
  freed : m.freed ≤ m.bytes.length
  restAt : n.nodeAt (List.replicate m.freed 0) = some m.rest
  nodeCount : nodeCount n = m.freed + nodeCount m.rest
  keyCount : keyCount n = keyCount m.rest

/-- The second scan, and the first one as long as the length fits. -/
theorem chain_spec (hn : NodesOk n) (h : endsChain n.label = false) :
    ∃ m, mergeChain n = some m ∧ MergeSpec n m ∧ n.label.size ≤ m.bytes.length ∧ 1 ≤ m.freed ∧
      ∀ comprsize nodes, comprsize + m.bytes.length ≤ raxNodeMaxSize →
        scanChain n (comprsize + n.label.size) (nodes + 1)
          = some (comprsize + m.bytes.length, nodes + m.freed) := by
  induction n using RoseTree.induct with
  | node l cs ih =>
    obtain ⟨hkey, hone, c, hc⟩ := link_of_not_endsChain hn.shapes.shape h
    obtain rfl : cs = [c] := (RoseTree.node.inj hc).2
    simp only [label_node] at h hkey hone ⊢
    obtain ⟨-, hcs⟩ := nodesOk_node.mp hn
    obtain ⟨hcleaf, hcok⟩ := hcs c (by simp)
    have hpos : 0 < l.data.length := List.length_pos_of_ne_nil hone.1
    have hsize : l.size ≠ 0 := hpos.ne'
    rw [mergeChain, if_neg hsize, mergeLast]
    cases hend : endsChain c.label with
    | true =>
      refine ⟨⟨l.data, 1, c⟩, by rw [if_pos rfl], ⟨fun k => ?_, hend, hcok, hcleaf, hone.1, hpos,
        nodeAt_cons_eq_some.mpr ⟨c, rfl, nodeAt_nil c⟩, ?_, ?_⟩,
        le_rfl, le_rfl, fun comprsize nodes hmax => ?_⟩
      · by_cases hk : k = []
        · subst hk
          simp [lookup_nil, stringNode, hkey]
        · obtain ⟨h1, h2⟩ := oneChild_stringNode (V := V) false false hone.1
          rw [lookup_single h1 h2 hk, lookup_single hone.1 hone.2 hk]
          rfl
      · simp [nodeCount_node]
      · simp [keyCount_node, hkey]
      · rw [scanChain, if_neg hsize, scanLast, hend, if_pos rfl]
        rfl
    | false =>
      obtain ⟨m, hm, hspec, hle, hfreed, hscan⟩ := ih c (by simp) hcok hend
      have hdata : l.data ++ m.bytes ≠ [] := by simp [hone.1]
      refine ⟨⟨l.data ++ m.bytes, m.freed + 1, m.rest⟩, by rw [if_neg (by simp), hm]; rfl,
        ⟨fun k => ?_, hspec.ends, hspec.nodes, hspec.leaf, hdata, ?_,
          nodeAt_cons_eq_some.mpr ⟨c, rfl, hspec.restAt⟩, ?_, ?_⟩, ?_,
        by simp, fun comprsize nodes hmax => ?_⟩
      · rw [← lookup_join hone (oneChild_stringNode false false hspec.bytes)
          (oneChild_stringNode false false hdata) rfl (by simp [own, hkey, stringNode]) rfl k]
        by_cases hk : k = []
        · subst hk
          rfl
        · rw [lookup_single hone.1 hone.2 hk, lookup_single hone.1 hone.2 hk, hspec.lookup]
      · have := hspec.freed
        simp only [List.length_append]
        omega
      · have := hspec.nodeCount
        simp only [nodeCount_node, List.map_cons, List.map_nil, List.sum_cons, List.sum_nil]
        omega
      · have := hspec.keyCount
        simp [keyCount_node, hkey, this]
      · simp [RaxHdr.size]
      · simp only [List.length_append] at hmax ⊢
        rw [RaxHdr.size] at hle
        rw [scanChain, if_neg hsize, scanLast, hend, if_neg (by simp), RaxHdr.size, RaxHdr.size,
          if_neg (by omega)]
        have := hscan (comprsize + l.data.length) (nodes + 1) (by omega)
        rw [RaxHdr.size] at this
        rw [this]
        congr 2 <;> omega

/-! ### The whole recompression -/

theorem childIndex_concat {c : RaxNode V} {i : ℕ} (hc : n.children[i]? = some c)
    (ptr : NodePtr) : childIndex n ptr (ptr ++ [i]) = some i := by
  have hi : i < n.children.length := (List.getElem?_eq_some_iff.mp hc).choose
  rw [childIndex, List.find?_range_eq_some]
  refine ⟨by simp, List.mem_range.mpr hi, fun j hj => ?_⟩
  simp
  omega

/-- The upper end of the chain through `p`. -/
theorem climb_spec {t : RaxNode V} (hn : t.nodeAt p = some n) (h : endsChain n.label = false) :
    ∃ q r m, p = q ++ r ∧
      climb t (ancestors p) p = some (q, if q = [] then none else some q.dropLast) ∧
      t.nodeAt q = some m ∧ endsChain m.label = false ∧ Thin m r ∧
      (q = [] ∨ endsAt t q.dropLast = true) := by
  induction p using List.reverseRecOn generalizing n with
  | nil => exact ⟨[], [], n, rfl, rfl, hn, h, thin_nil n, .inl rfl⟩
  | append_singleton p j ih =>
    obtain ⟨m, hm, -⟩ := exists_nodeAt_of_append hn
    rw [ancestors_concat, climb, hm, Option.bind_some]
    cases hend : endsChain m.label with
    | true =>
      refine ⟨p ++ [j], [], n, by simp, by simp, hn, h, thin_nil n, .inr ?_⟩
      rw [List.dropLast_concat, endsAt, hm]
      exact hend
    | false =>
      obtain ⟨q, r, m', rfl, hq, hm', hend', hthin, habove⟩ := ih hm hend
      refine ⟨q, r ++ [j], m', by simp, ?_, hm', hend', hthin.concat ?_ hend, habove⟩
      · rw [if_neg (by simp)]
        exact hq
      · rw [nodeAt_append, hm'] at hm
        exact hm

theorem mergedNode_eq (hlen : 1 < bytes.length) (rest : RaxNode V) :
    mergedNode bytes rest = node (stringNode false false bytes) [rest] := by
  simp [mergedNode, stringNode, hlen]

/-- Writing a compressed node over the end of the chain keeps the tree well
formed, whatever its string is. -/
theorem MergeSpec.raxOk_merged
    (hm : MergeSpec n m) (ht : RaxOk t) (hn : t.head.nodeAt q = some n) (hlen : 1 < bytes.length) :
    RaxOk { t with
      head := t.head.replace q (mergedNode bytes m.rest)
      numnodes := t.numnodes + 1 - m.freed } := by
  have hbytes : bytes ≠ [] := List.ne_nil_of_length_pos (by omega)
  simp only [mergedNode_eq hlen]
  refine ⟨?_, ?_, ?_⟩
  · refine ht.nodes.replace hn ?_ fun _ h0 => absurd h0 hbytes
    exact nodesOk_node.mpr ⟨shapeOk_stringNode false false hbytes,
      by simpa using ⟨hm.leaf, hm.nodes⟩⟩
  · have h1 := keyCount_replace (node (stringNode false false bytes) [m.rest]) hn
    have h2 := hm.keyCount
    have h3 := ht.numele
    simp only [keyCount_node, stringNode, Bool.false_eq_true, if_false, List.map_cons,
      List.map_nil, List.sum_cons, List.sum_nil] at h1 ⊢
    omega
  · have h1 := nodeCount_replace (node (stringNode false false bytes) [m.rest]) hn
    have h2 := hm.nodeCount
    have h3 := ht.numnodes
    have h4 := nodeCount_le hn
    simp only [nodeCount_node, List.map_cons, List.map_nil, List.sum_cons, List.sum_nil] at h1 ⊢
    omega

/-- Writing the merged node in place of the chain. -/
theorem MergeSpec.raxOk_replace
    (hm : MergeSpec n m) (ht : RaxOk t) (hn : t.head.nodeAt q = some n) (hfreed : 1 < m.freed) :
    let r : RaxTree V := { t with
      head := t.head.replace q (mergedNode m.bytes m.rest)
      numnodes := t.numnodes + 1 - m.freed }
    RaxOk r ∧ r.numele = t.numele ∧ ∀ k, Rax.lookup r.head k = Rax.lookup t.head k := by
  have hlen : 1 < m.bytes.length := lt_of_lt_of_le hfreed hm.freed
  refine ⟨hm.raxOk_merged ht hn hlen, rfl, ?_⟩
  simp only [mergedNode_eq hlen]
  exact lookup_replace_of_same ht.nodes.shapes hn hm.lookup

/-- The recompression, from what its two scans of the chain at `q` give. -/
theorem recompress_of_scans {stack : List NodePtr} {first : RaxNode V} {comprsize nodes : ℕ}
    (hclimb : climb t.head stack p = some (q, if q = [] then none else some q.dropLast))
    (hfirst : t.head.nodeAt q = some first)
    (hscan : scanChain first first.label.size 1 = some (comprsize, nodes))
    (hm : mergeChain first = some m) (a : Allocs) :
    recompress t p stack a = if 1 < nodes ∧ a.head ≠ .null then
        if comprsize + raxPadding comprsize + 8 < m.bytes.length then none
        else some { t with
          head := t.head.replace q (mergedNode (m.bytes.take comprsize) m.rest)
          numnodes := t.numnodes + 1 - m.freed }
      else some t := by
  simp only [recompress, hclimb, hfirst, hscan, hm, Option.bind_eq_bind, Option.bind_some]
  by_cases hone : 1 < nodes
  case neg => rw [if_neg hone, if_neg fun h => hone h.1]
  by_cases hnull : a.head = .null
  · rw [if_pos hone, if_pos hnull, if_neg fun h => h.2 hnull]
  have hcond : 1 < nodes ∧ a.head ≠ .null := ⟨hone, hnull⟩
  rw [if_pos hone, if_neg hnull, if_pos hcond]
  by_cases hover : comprsize + raxPadding comprsize + 8 < m.bytes.length
  · rw [if_pos hover, if_pos hover]
  rw [if_neg hover, if_neg hover]
  by_cases hq : q = []
  · subst hq
    simp
  · obtain ⟨q, i, rfl⟩ := (List.eq_nil_or_concat' q).resolve_left hq
    obtain ⟨pn, hpn, hchild⟩ := exists_nodeAt_of_append hfirst
    obtain ⟨c, hc, -⟩ := nodeAt_cons_eq_some.mp hchild
    rw [if_neg hq]
    simp only [List.dropLast_concat, hpn, Option.bind_some, childIndex_concat hc]

/-- With the whole stack and keys that fit into a node, the recompression writes
one node in place of the chain through `p`, if the chain has two nodes or more
and there is memory. -/
theorem recompress_eq (ht : NodesOk t.head)
    (hmax : ∀ k d, lookup t.head k = some d → k.length ≤ raxNodeMaxSize)
    (hn : t.head.nodeAt p = some n) (h : endsChain n.label = false) (a : Allocs) :
    ∃ q r first m, p = q ++ r ∧ t.head.nodeAt q = some first ∧ endsChain first.label = false ∧
      Thin first r ∧ (q = [] ∨ endsAt t.head q.dropLast = true) ∧ MergeSpec first m ∧
      1 ≤ m.freed ∧
      recompress t p (ancestors p) a = some (if 1 < m.freed ∧ a.head ≠ .null then { t with
        head := t.head.replace q (mergedNode m.bytes m.rest)
        numnodes := t.numnodes + 1 - m.freed } else t) := by
  obtain ⟨q, r, first, hp, hclimb, hfirst, hlink, hthin, habove⟩ := climb_spec hn h
  have hfirstok := ht.nodeAt hfirst
  obtain ⟨m, hm, hspec, hsize, hfreed, hscan⟩ := chain_spec hfirstok hlink
  -- The merged string is part of a key.
  have hlen : m.bytes.length ≤ raxNodeMaxSize := by
    obtain ⟨k, d, hk⟩ := exists_lookup hspec.nodes hspec.leaf
    have hstored : lookup t.head (spell t.head q ++ (m.bytes ++ k)) = some d := by
      rw [lookup_spell ht.shapes hfirst, ← hspec.lookup]
      obtain ⟨h1, h2⟩ := oneChild_stringNode (V := V) false false hspec.bytes
      rw [lookup_single h1 h2 (by simp [hspec.bytes])]
      simpa [stringNode] using hk
    have := hmax _ _ hstored
    simp only [List.length_append] at this
    omega
  have hscan' := hscan 0 0 (by omega)
  simp only [Nat.zero_add] at hscan'
  refine ⟨q, r, first, m, hp, hfirst, hlink, hthin, habove, hspec, hfreed, ?_⟩
  have hover : ¬ m.bytes.length + raxPadding m.bytes.length + 8 < m.bytes.length := by omega
  rw [recompress_of_scans hclimb hfirst hscan' hm, if_neg hover, List.take_length]
  split_ifs <;> rfl

/-- **Recompression.**  It keeps the map and the counters right, and is always
defined. -/
theorem recompress_spec (ht : RaxOk t)
    (hmax : ∀ k d, lookup t.head k = some d → k.length ≤ raxNodeMaxSize)
    (hn : t.head.nodeAt p = some n) (h : endsChain n.label = false) (a : Allocs) :
    ∃ r, recompress t p (ancestors p) a = some r ∧ RaxOk r ∧ r.numele = t.numele ∧
      ∀ k, lookup r.head k = lookup t.head k := by
  obtain ⟨q, -, first, m, -, hfirst, -, -, -, hspec, -, heq⟩ := recompress_eq ht.nodes hmax hn h a
  refine ⟨_, heq, ?_⟩
  split_ifs with hmerge
  · exact hspec.raxOk_replace ht hfirst hmerge.1
  · exact ⟨ht, rfl, fun k => rfl⟩

end Rax
