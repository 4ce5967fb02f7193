/-
Compact radix trees are canonical.

A tree is compact if no node with a single child, a key or not, has a child that
a scan of a chain would go on with.  Two compact trees with the same map are the
same tree, up to the bits that nothing reads (`visible_eq_of_lookup_eq`):

* the first bytes of the edges of a node are those with which a key below it
  starts (`starts_iff`), so the two roots branch in the same way;
* the string above a node that is a key or branches is the longest one that all
  keys share (`data_prefix_of_lookup_eq`).
-/
import DecomposeRedis.RaxMerge

open RoseTree

namespace Rax

variable {V : Type} {l : RaxHdr V}

/-- The node has exactly one child. -/
def Single (l : RaxHdr V) : Prop := l.iscompr = true ∨ l.size = 1

/-- The only child of a node with a single child is not a link of a chain. -/
def CompactAt (l : RaxHdr V) (cls : List (RaxHdr V)) : Prop :=
  Single l → ∀ c ∈ cls, endsChain c = true

/-- The tree is maximally compressed. -/
abbrev Compact (n : RaxNode V) : Prop := Everywhere CompactAt n

theorem compact_node {cs : List (RaxNode V)} :
    Compact (node l cs) ↔
      (Single l → ∀ c ∈ cs, endsChain c.label = true) ∧ ∀ c ∈ cs, Compact c := by
  rw [Compact, everywhere_node]
  simp [CompactAt]

/-- A link of a chain has a single child. -/
theorem single_of_not_endsChain (h : endsChain l = false) : Single l := by
  simp only [endsChain, Bool.or_eq_false_iff, Bool.and_eq_false_iff, Bool.not_eq_eq_eq_not,
    Bool.not_false, bne_eq_false_iff_eq] at h
  exact h.2

theorem Single.oneChild {n : RaxNode V} (hn : ShapeOk n.label n.children.length)
    (h : Single n.label) : OneChild n.label ∧ ∃ c, n = node n.label [c] := by
  obtain ⟨l, cs⟩ := n
  simp only [label_node, children_node] at hn h ⊢
  cases hc : l.iscompr with
  | true =>
    obtain ⟨hlen, hcs⟩ := hn.compr hc
    obtain ⟨c, rfl⟩ := List.length_eq_one_iff.mp hcs
    exact ⟨⟨List.ne_nil_of_length_pos (by omega), fun h => by simp [hc] at h⟩, c, rfl⟩
  | false =>
    have hsize : l.data.length = 1 := by
      rcases h with h | h
      · simp [hc] at h
      · exact h
    obtain ⟨c, rfl⟩ := List.length_eq_one_iff.mp ((hn.plain hc).trans hsize)
    exact ⟨⟨List.ne_nil_of_length_pos (by omega), fun _ => hsize⟩, c, rfl⟩

/-! ### Compact trees with the same map are equal -/

/-- What other functions can see of a header: `isnull` and the value only count
for a key. -/
def visible (l : RaxHdr V) : Bool × List UInt8 × Option (Option V) :=
  (l.iscompr, l.data, own l)

/-- Some key below the node starts with the byte. -/
def Starts (n : RaxNode V) (b : UInt8) : Prop := ∃ k d, lookup n (b :: k) = some d

/-- The first bytes of the edges of a node. -/
def firstBytes (l : RaxHdr V) : List UInt8 := if l.iscompr then l.data.take 1 else l.data

theorem firstBytes_plain (h : l.iscompr = false) : firstBytes l = l.data := by
  rw [firstBytes, if_neg (by simp [h])]

theorem starts_iff {n : RaxNode V} (hn : NodesOk n) (b : UInt8) :
    Starts n b ↔ b ∈ firstBytes n.label := by
  have hshape := hn.shapes.shape
  -- There is a key below every child.
  have hbelow : ∀ i c, n.children[i]? = some c → ∃ k d,
      lookup n (edge n.label i ++ k) = some d := by
    intro i c hc
    have hok := hn
    rw [← node_eta n] at hok
    obtain ⟨hleaf, hcok⟩ := (nodesOk_node.mp hok).2 _ (List.mem_of_getElem? hc)
    obtain ⟨k, d, hk⟩ := exists_lookup hcok hleaf
    exact ⟨k, d, (lookup_edge hshape hc k).trans hk⟩
  cases hp : n.label.iscompr with
  | true =>
    obtain ⟨hlen, hone⟩ := hshape.compr hp
    obtain ⟨c, hc⟩ := List.length_eq_one_iff.mp hone
    obtain ⟨x, xs, hx⟩ := List.exists_cons_of_ne_nil (List.ne_nil_of_length_pos (by omega :
      0 < n.label.data.length))
    rw [firstBytes, if_pos hp, hx, List.take_succ_cons, List.take_zero, List.mem_singleton]
    constructor
    · rintro ⟨k, d, hk⟩
      rw [← node_eta n, hc, lookup_compr hp (by simp [hx]) (by simp), hx] at hk
      by_contra hne
      rw [if_neg (by simp [Ne.symm hne])] at hk
      cases hk
    · rintro rfl
      obtain ⟨k, d, hk⟩ := hbelow 0 c (by rw [hc]; rfl)
      rw [edge_compr hp, hx] at hk
      exact ⟨xs ++ k, d, hk⟩
  | false =>
    rw [firstBytes_plain hp]
    constructor
    · rintro ⟨k, d, hk⟩
      by_contra hb
      have := lookup_plain_of_not_mem hshape hp hb k
      rw [node_eta, hk] at this
      cases this
    · intro hb
      obtain ⟨i, hi, rfl⟩ := List.getElem_of_mem hb
      have hi' := (hshape.lt_iff hp).mpr hi
      obtain ⟨k, d, hk⟩ := hbelow i _ (List.getElem?_eq_getElem hi')
      rw [edge_plain hp hi] at hk
      exact ⟨k, d, hk⟩

theorem firstBytes_sorted {arity : ℕ} (h : ShapeOk l arity) :
    (firstBytes l).Pairwise (· < ·) := by
  cases hp : l.iscompr with
  | true =>
    rw [firstBytes, if_pos hp]
    rcases l.data with _ | ⟨x, xs⟩ <;> simp
  | false =>
    rw [firstBytes_plain hp]
    exact h.sorted hp

/-- A node has a single child if its edges have a single first byte. -/
theorem single_iff {arity : ℕ} (h : ShapeOk l arity) :
    Single l ↔ (firstBytes l).length = 1 := by
  cases hp : l.iscompr with
  | true =>
    have := (h.compr hp).1
    rw [firstBytes, if_pos hp, List.length_take]
    exact ⟨fun _ => by omega, fun _ => .inl hp⟩
  | false =>
    rw [firstBytes_plain hp, Single, hp]
    simp [RaxHdr.size]

section Unique

variable {l l' : RaxHdr V} {c c' : RaxNode V}

/-- The string of a node with a single child is not shorter than that of another
one with the same map: its child is a key or branches. -/
theorem data_prefix_of_lookup_eq (hl : OneChild l) (hl' : OneChild l') (hc : NodesOk c)
    (hleaf : LeafOk c) (hend : endsChain c.label = true)
    (h : ∀ k, lookup (node l [c]) k = lookup (node l' [c']) k) : l'.data <+: l.data := by
  -- Every key below `c` starts with the string of `l'`.
  have hkeys : ∀ k d, lookup c k = some d → l'.data <+: l.data ++ k := by
    intro k d hk
    have hne : l.data ++ k ≠ [] := by simp [hl.1]
    have := h (l.data ++ k)
    rw [lookup_single hl.1 hl.2 hne, if_pos (List.prefix_append _ _), List.drop_left, hk,
      lookup_single hl'.1 hl'.2 hne] at this
    by_contra hpre
    rw [if_neg hpre] at this
    cases this
  obtain ⟨k, d, hk⟩ := exists_lookup hc hleaf
  rcases List.prefix_or_prefix_of_prefix (hkeys k d hk) (List.prefix_append l.data k) with
    hpre | ⟨rest, hrest⟩
  · exact hpre
  rcases rest with _ | ⟨b, rest⟩
  · rw [List.append_nil] at hrest
    rw [hrest]
  -- The string of `l'` goes on with `b`, so `c` is no key and has the edge `b` only.
  exfalso
  have honly : ∀ k d, lookup c k = some d → ∃ k', k = b :: k' := by
    intro k d hk
    have hpre := hkeys k d hk
    rw [← hrest] at hpre
    obtain ⟨suffix, hsuffix⟩ := (List.prefix_append_right_inj _).mp hpre
    exact ⟨rest ++ suffix, hsuffix.symm⟩
  have hkey : c.label.iskey = false := by
    cases hkey : c.label.iskey with
    | false => rfl
    | true =>
      have hown : lookup c [] = some (raxGetData c.label) := by
        rw [lookup_nil, hkey, if_pos rfl]
      obtain ⟨k', hk'⟩ := honly [] _ hown
      cases hk'
  simp only [endsChain, hkey, Bool.false_or, Bool.and_eq_true, Bool.not_eq_eq_eq_not,
    Bool.not_true, bne_iff_ne, ne_eq] at hend
  obtain ⟨hplain, hsize⟩ := hend
  have hall : ∀ b' ∈ c.label.data, b' = b := by
    intro b' hb'
    rw [← firstBytes_plain hplain] at hb'
    obtain ⟨k, d, hk⟩ := (starts_iff hc b').mpr hb'
    obtain ⟨k', hk'⟩ := honly _ d hk
    exact (List.cons.inj hk').1
  have hnodup := hc.shapes.shape.nodup hplain
  have hne : c.label.data ≠ [] := by
    intro h0
    rw [hleaf h0] at hkey
    cases hkey
  rw [List.eq_replicate_of_mem hall, List.nodup_replicate] at hnodup
  exact hsize (Nat.le_antisymm hnodup (List.length_pos_iff.mpr hne))

/-- Equal maps of two nodes with a single child. -/
theorem single_eq_of_lookup_eq (hl : ShapeOk l 1) (hl' : ShapeOk l' 1) (hs : OneChild l)
    (hs' : OneChild l') (hdata : l.data = l'.data)
    (h : ∀ k, lookup (node l [c]) k = lookup (node l' [c']) k) :
    visible l = visible l' ∧ ∀ k, lookup c k = lookup c' k := by
  have hcompr : ∀ {x : RaxHdr V}, ShapeOk x 1 → OneChild x →
      x.iscompr = decide (2 ≤ x.data.length) := by
    intro x hx hone
    cases hp : x.iscompr with
    | true => exact (decide_eq_true (hx.compr hp).1).symm
    | false => rw [hone.2 hp]; rfl
  constructor
  · have hown : own l = own l' := h []
    rw [visible, visible, hcompr hl hs, hcompr hl' hs', hdata, hown]
  · intro k
    have := h (l.data ++ k)
    rw [lookup_single hs.1 hs.2 (by simp [hs.1]), lookup_single hs'.1 hs'.2 (by simp [hs.1]),
      ← hdata, if_pos (List.prefix_append _ _), if_pos (List.prefix_append _ _), List.drop_left]
      at this
    exact this

end Unique

/-- **Compact trees are canonical.**  Two of them with the same map differ at
most in what nothing reads. -/
theorem visible_eq_of_lookup_eq {n n' : RaxNode V} (hn : NodesOk n) (hn' : NodesOk n')
    (hc : Compact n) (hc' : Compact n') (h : ∀ k, lookup n k = lookup n' k) :
    n.map visible = n'.map visible := by
  induction n using RoseTree.induct generalizing n' with
  | node l cs ih =>
    obtain ⟨l', cs'⟩ := n'
    have hshape := hn.shapes.shape
    have hshape' := hn'.shapes.shape
    simp only [label_node, children_node] at hshape hshape'
    -- The two nodes have the same first bytes.
    have hfirst : firstBytes l = firstBytes l' := by
      refine (firstBytes_sorted hshape).eq_of_mem_iff (firstBytes_sorted hshape') fun b => ?_
      have h1 := starts_iff hn b
      have h2 := starts_iff hn' b
      simp only [Starts, h] at h1 h2
      exact h1.symm.trans h2
    obtain ⟨hhere, hbelow⟩ := compact_node.mp hc
    obtain ⟨hhere', hbelow'⟩ := compact_node.mp hc'
    obtain ⟨-, hkids⟩ := nodesOk_node.mp hn
    obtain ⟨-, hkids'⟩ := nodesOk_node.mp hn'
    rw [map_node, map_node]
    by_cases hs : Single l
    · have hs' : Single l' := (single_iff hshape').mpr (hfirst ▸ (single_iff hshape).mp hs)
      obtain ⟨hone, c, heq⟩ := Single.oneChild (n := node l cs) hshape hs
      obtain ⟨hone', c', heq'⟩ := Single.oneChild (n := node l' cs') hshape' hs'
      obtain rfl : cs = [c] := (RoseTree.node.inj heq).2
      obtain rfl : cs' = [c'] := (RoseTree.node.inj heq').2
      obtain ⟨hleaf, hok⟩ := hkids c (by simp)
      obtain ⟨hleaf', hok'⟩ := hkids' c' (by simp)
      have hpre := data_prefix_of_lookup_eq hone hone' hok hleaf (hhere hs c (by simp)) h
      have hpre' := data_prefix_of_lookup_eq hone' hone hok' hleaf' (hhere' hs' c' (by simp))
        fun k => (h k).symm
      have hdata : l.data = l'.data :=
        hpre'.eq_of_length (le_antisymm hpre'.length_le hpre.length_le)
      obtain ⟨hvis, hlookup⟩ := single_eq_of_lookup_eq hshape hshape' hone hone' hdata h
      rw [hvis, List.map_cons, List.map_cons, List.map_nil,
        ih c (by simp) hok hok' (hbelow c (by simp)) (hbelow' c' (by simp)) hlookup]
    · have hs' : ¬ Single l' := fun hs' =>
        hs ((single_iff hshape).mpr (hfirst ▸ (single_iff hshape').mp hs'))
      have hp : l.iscompr = false := by simpa using fun hp => hs (.inl hp)
      have hp' : l'.iscompr = false := by simpa using fun hp => hs' (.inl hp)
      rw [firstBytes_plain hp, firstBytes_plain hp'] at hfirst
      have hown : own l = own l' := h []
      have hvis : visible l = visible l' := by
        rw [visible, visible, hp, hp', hfirst, hown]
      have hlen : cs.length = cs'.length := by
        rw [hshape.plain hp, hshape'.plain hp', hfirst]
      rw [hvis]
      congr 1
      refine List.ext_getElem (by simpa using hlen) fun i hi hi' => ?_
      rw [List.getElem_map, List.getElem_map]
      rw [List.length_map] at hi hi'
      have hmem := List.getElem_mem hi
      have hmem' := List.getElem_mem hi'
      refine ih _ hmem (hkids _ hmem).2 (hkids' _ hmem').2 (hbelow _ hmem)
        (hbelow' _ hmem') fun k => ?_
      have hedge : edge l i = edge l' i := by rw [edge, edge, hp, hp', hfirst]
      have h1 := lookup_edge (n := node l cs) hshape (List.getElem?_eq_getElem hi) k
      have h2 := lookup_edge (n := node l' cs') hshape' (List.getElem?_eq_getElem hi') k
      rw [label_node] at h1 h2
      rw [← h1, ← h2, h, hedge]

end Rax
