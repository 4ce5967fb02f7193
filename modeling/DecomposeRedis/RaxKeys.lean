/-
The keys of a radix tree.

`keys` lists the strings stored below a node, a node before its children and the
children in the order of their edge bytes.  On a well-formed tree these are the
strings `lookup` finds (`mem_keys`).
-/
import DecomposeRedis.RaxMerge

open RoseTree

namespace Rax

variable {V : Type}

mutual
/-- The strings stored below a node, in increasing order. -/
def keys : RaxNode V → List Key
  | node l cs => (if l.iskey then [[]] else []) ++ keysBelow l 0 cs
/-- The strings that go through the children `cs`, the first of which is the
`i`-th child. -/
def keysBelow (l : RaxHdr V) : ℕ → List (RaxNode V) → List Key
  | _, [] => []
  | i, c :: cs => (keys c).map (edge l i ++ ·) ++ keysBelow l (i + 1) cs
end

theorem mem_keysBelow {l : RaxHdr V} {i : ℕ} {cs : List (RaxNode V)} {k : Key} :
    k ∈ keysBelow l i cs ↔ ∃ j c, cs[j]? = some c ∧ ∃ k' ∈ keys c, edge l (i + j) ++ k' = k := by
  induction cs generalizing i with
  | nil => simp [keysBelow]
  | cons c cs ih =>
    rw [keysBelow, List.mem_append, List.mem_map, ih]
    constructor
    · rintro (h | ⟨j, d, hd, h⟩)
      · exact ⟨0, c, rfl, h⟩
      · exact ⟨j + 1, d, hd, by rwa [show i + (j + 1) = i + 1 + j by omega]⟩
    · rintro ⟨_ | j, d, hd, h⟩
      · obtain rfl : c = d := by simpa using hd
        exact .inl h
      · exact .inr ⟨j, d, hd, by rwa [show i + 1 + j = i + (j + 1) by omega]⟩

/-- The keys of a node, from those of its children. -/
theorem mem_keys_node {n : RaxNode V} {k : Key} :
    k ∈ keys n ↔ k = [] ∧ n.label.iskey = true ∨
      ∃ i c, n.children[i]? = some c ∧ ∃ k' ∈ keys c, edge n.label i ++ k' = k := by
  obtain ⟨l, cs⟩ := n
  rw [keys, List.mem_append, mem_keysBelow]
  simp only [Nat.zero_add, label_node, children_node]
  refine or_congr_left ?_
  split_ifs with h <;> simp [h]

/-- **The keys** are the strings that are stored. -/
theorem mem_keys {n : RaxNode V} (hn : ShapesOk n) {k : Key} :
    k ∈ keys n ↔ ∃ d, lookup n k = some d := by
  induction n using RoseTree.induct generalizing k with
  | node l cs ih =>
    obtain ⟨hshape, hcs⟩ := shapesOk_node.mp hn
    rw [mem_keys_node]
    simp only [label_node, children_node]
    constructor
    · rintro (⟨rfl, hkey⟩ | ⟨i, c, hc, k', hk', rfl⟩)
      · exact ⟨raxGetData l, by rw [lookup_nil, label_node, if_pos hkey]⟩
      · have hmem := List.mem_of_getElem? hc
        obtain ⟨d, hd⟩ := (ih c hmem (hcs c hmem)).mp hk'
        exact ⟨d, (lookup_edge (n := node l cs) hshape hc k').trans hd⟩
    · rintro ⟨d, hd⟩
      rcases k with _ | ⟨b, k⟩
      · rw [lookup_nil, label_node] at hd
        split_ifs at hd with hkey
        exact .inl ⟨rfl, hkey⟩
      refine .inr ?_
      cases hc : l.iscompr with
      | true =>
        obtain ⟨hlen, hone⟩ := hshape.compr hc
        obtain ⟨c, rfl⟩ := List.length_eq_one_iff.mp hone
        rw [lookup_compr hc (List.ne_nil_of_length_pos (by omega)) (by simp)] at hd
        split_ifs at hd with hpre
        obtain ⟨k', hk'⟩ := hpre
        rw [← hk', List.drop_left] at hd
        exact ⟨0, c, rfl, k', (ih c (by simp) (hcs c (by simp))).mpr ⟨d, hd⟩,
          by rw [edge_compr hc, hk']⟩
      | false =>
        rw [lookup_plain hc] at hd
        obtain ⟨c, hcc, hd⟩ := Option.bind_eq_some_iff.mp hd
        have hmem := List.mem_of_getElem? hcc
        have hlt := (hshape.lt_iff hc).mp (List.getElem?_eq_some_iff.mp hcc).choose
        exact ⟨l.data.idxOf b, c, hcc, k, (ih c hmem (hcs c hmem)).mpr ⟨d, hd⟩,
          by rw [edge_plain hc hlt, List.getElem_idxOf, List.singleton_append]⟩

/-- Below every well-formed node there is a key. -/
theorem keys_ne_nil {n : RaxNode V} (hn : NodesOk n) (hleaf : LeafOk n) : keys n ≠ [] := by
  obtain ⟨k, d, hk⟩ := exists_lookup hn hleaf
  exact List.ne_nil_of_mem ((mem_keys hn.shapes).mpr ⟨d, hk⟩)

end Rax
