/-
Local edits of the radix tree.

Every write of rax.c replaces the node at one position.  This file says what
such a replacement needs to keep the tree well formed (`NodesOk.replace`), how
it changes the two counters (`nodeCount`, `keyCount`), and what the basic edits
of a node do to its map:

* `setKey` — make the node a key;
* `raxCompressNode`, `raxAddChild` — link a new leaf, which changes no map
  because the leaf is not a key yet.
-/
import DecomposeRedis.RaxInsert

open RoseTree

namespace Rax

variable {V : Type}

/-! ### Counting nodes and keys -/

/-- The number of nodes of a tree. -/
def nodeCount (n : RaxNode V) : ℕ := countP (fun _ => true) n

/-- The number of nodes with `iskey` set. -/
def keyCount (n : RaxNode V) : ℕ := countP (fun l => l.iskey) n

theorem nodeCount_node (l : RaxHdr V) (cs : List (RaxNode V)) :
    nodeCount (node l cs) = 1 + (cs.map nodeCount).sum := by
  rw [nodeCount, countP_eq, if_pos rfl]
  rfl

theorem keyCount_node (l : RaxHdr V) (cs : List (RaxNode V)) :
    keyCount (node l cs) = (if l.iskey then 1 else 0) + (cs.map keyCount).sum := by
  rw [keyCount, countP_eq]
  rfl

theorem nodeCount_pos (n : RaxNode V) : 0 < nodeCount n := by
  rw [← node_eta n, nodeCount_node]
  omega

variable {t n m : RaxNode V} {p : NodePtr} {l' : RaxHdr V} {i : ℕ}

theorem nodeCount_replace (m : RaxNode V)
    (h : t.nodeAt p = some n) :
    nodeCount (t.replace p m) + nodeCount n = nodeCount t + nodeCount m :=
  countP_replace _ m h

theorem keyCount_replace (m : RaxNode V)
    (h : t.nodeAt p = some n) :
    keyCount (t.replace p m) + keyCount n = keyCount t + keyCount m :=
  countP_replace _ m h

theorem nodeCount_le (h : t.nodeAt p = some n) :
    nodeCount n ≤ nodeCount t := by
  have h1 := nodeCount_replace (raxNewNode [] []) h
  have h2 := nodeCount_pos (t.replace p (raxNewNode [] []))
  have h3 : nodeCount (raxNewNode [] [] : RaxNode V) = 1 := rfl
  omega

@[simp] theorem nodeCount_new : nodeCount (raxNewNode [] [] : RaxNode V) = 1 := rfl

@[simp] theorem keyCount_new : keyCount (raxNewNode [] [] : RaxNode V) = 0 := rfl

/-! ### Well-formedness of a replacement -/

/-- A node without children may stand below another one only if it is a key. -/
def LeafOk (n : RaxNode V) : Prop := n.label.data = [] → n.label.iskey = true

theorem NodesOk.leafAt {q : NodePtr} (h : NodesOk t) (hn : t.nodeAt (q ++ [i]) = some n) :
    LeafOk n := by
  obtain ⟨m, hm, hc⟩ := exists_nodeAt_of_append hn
  obtain ⟨c, hmem, hcn⟩ := nodeAt_cons_eq_some.mp hc
  obtain rfl : c = n := by simpa using hcn
  exact (h q m hm).leaf c.label (List.mem_map_of_mem (List.mem_of_getElem? hmem))

/-- A well-formed node can replace any node, except that one below the head
must not be a leaf that is no key. -/
theorem NodesOk.replace (ht : NodesOk t) (hn : t.nodeAt p = some n) (hm : NodesOk m)
    (hleaf : p ≠ [] → LeafOk m) :
    NodesOk (t.replace p m) := by
  refine Everywhere.replace ht hn hm fun q i k hp hk => ?_
  have hok := ht q k hk
  refine ⟨?_, fun c hc hdata => ?_⟩
  · rw [List.length_set]
    exact hok.shape
  · rcases List.mem_or_eq_of_mem_set hc with hc | rfl
    · exact hok.leaf c hc hdata
    · exact hleaf (by simp [hp]) hdata

theorem ShapesOk.replace (ht : ShapesOk t) (hn : t.nodeAt p = some n) (hm : ShapesOk m) :
    ShapesOk (t.replace p m) := by
  refine Everywhere.replace ht hn hm fun q i k _ hk => ?_
  rw [List.length_set]
  exact ht q k hk

variable {l : RaxHdr V} {cs : List (RaxNode V)}

theorem nodesOk_node :
    NodesOk (node l cs) ↔ ShapeOk l cs.length ∧ ∀ c ∈ cs, LeafOk c ∧ NodesOk c := by
  rw [NodesOk, everywhere_node]
  constructor
  · rintro ⟨hok, hcs⟩
    refine ⟨by simpa using hok.shape, fun c hc => ⟨fun h => ?_, hcs c hc⟩⟩
    exact hok.leaf c.label (List.mem_map_of_mem hc) h
  · rintro ⟨hshape, hcs⟩
    refine ⟨⟨by simpa using hshape, fun c hc hdata => ?_⟩, fun c hc => (hcs c hc).2⟩
    obtain ⟨d, hd, rfl⟩ := List.mem_map.mp hc
    exact (hcs d hd).1 hdata

theorem shapesOk_node :
    ShapesOk (node l cs) ↔ ShapeOk l cs.length ∧ ∀ c ∈ cs, ShapesOk c := by
  rw [ShapesOk, everywhere_node]
  simp

/-- The tree would be well formed with any good node at the position. -/
def Hole (t : RaxNode V) (p : NodePtr) : Prop :=
  ∀ m, NodesOk m → (p ≠ [] → LeafOk m) → NodesOk (t.replace p m)

theorem NodesOk.hole (ht : NodesOk t)
    (hn : t.nodeAt p = some n) : Hole t p :=
  fun _ hm hleaf => ht.replace hn hm hleaf

/-- A hole stays one when the node there gets a child with a hole of its own. -/
theorem Hole.below (h : Hole t p) (hn : t.nodeAt p = some n) (hdata : m.label.data ≠ [])
    (hm : ∀ c, NodesOk c → LeafOk c → NodesOk (m.replace [i] c)) :
    Hole (t.replace p m) (p ++ [i]) := by
  intro c hc hleaf
  rw [replace_append [i] c (nodeAt_replace m hn), replace_replace]
  refine h _ (hm c hc (hleaf (by simp))) fun _ hdata' => absurd ?_ hdata
  simpa using hdata'

/-! ### A leaf that is no key -/

theorem shapesOk_new : ShapesOk (raxNewNode [] [] : RaxNode V) := by
  refine shapesOk_node.mpr ⟨⟨?_, fun _ => rfl, fun _ => List.Pairwise.nil⟩, by simp⟩
  intro h
  cases h

theorem nodesOk_new : NodesOk (raxNewNode [] [] : RaxNode V) := by
  refine nodesOk_node.mpr ⟨⟨?_, fun _ => rfl, fun _ => List.Pairwise.nil⟩, by simp⟩
  intro h
  cases h

theorem lookup_childless (h : l.iscompr = false) {k : Key} (hk : k ≠ []) :
    lookup (node l []) k = none := by
  obtain ⟨b, k, rfl⟩ := List.exists_cons_of_ne_nil hk
  rw [lookup_plain h]
  rfl

@[simp] theorem lookup_new (k : Key) : lookup (raxNewNode [] [] : RaxNode V) k = none := by
  rcases k with _ | ⟨b, k⟩
  · rfl
  · exact lookup_childless rfl (by simp)

/-! ### Making a node a key -/

/-- The node as a key with the given value. -/
def setKey (n : RaxNode V) (d : Option V) : RaxNode V :=
  node (raxSetData n.label d) n.children

@[simp] theorem setKey_label (n : RaxNode V) (d : Option V) :
    (setKey n d).label = raxSetData n.label d := rfl

@[simp] theorem setKey_children (n : RaxNode V) (d : Option V) :
    (setKey n d).children = n.children := rfl

/-- Below its root, the map of a node does not depend on the key bits. -/
theorem lookup_congr_key (cs : List (RaxNode V))
    (hc : l'.iscompr = l.iscompr) (hd : l'.data = l.data) {k : Key} (hk : k ≠ []) :
    lookup (node l' cs) k = lookup (node l cs) k := by
  obtain ⟨b, k, rfl⟩ := List.exists_cons_of_ne_nil hk
  obtain ⟨iskey, isnull, iscompr, data, value⟩ := l
  obtain ⟨iskey', isnull', iscompr', data', value'⟩ := l'
  simp only at hc hd
  subst hc hd
  rfl

theorem updates_setKey (n : RaxNode V) (d : Option V) :
    Updates n (setKey n d) [] (some d) := by
  intro k
  by_cases hk : k = []
  · subst hk
    simp [lookup_nil]
  · rw [if_neg hk, setKey, lookup_congr_key (l := n.label) _ (by simp) (by simp) hk, node_eta]

theorem ShapeOk.congr {k : ℕ} (h : ShapeOk l k)
    (hc : l'.iscompr = l.iscompr) (hd : l'.data = l.data) : ShapeOk l' k := by
  refine ⟨fun hl => ?_, fun hl => ?_, fun hl => ?_⟩
  · rw [hd]
    exact h.compr (hc ▸ hl)
  · rw [hd]
    exact h.plain (hc ▸ hl)
  · rw [hd]
    exact h.sorted (hc ▸ hl)

theorem NodesOk.congr_key (h : NodesOk (node l cs))
    (hc : l'.iscompr = l.iscompr) (hd : l'.data = l.data) : NodesOk (node l' cs) := by
  obtain ⟨hshape, hcs⟩ := nodesOk_node.mp h
  exact nodesOk_node.mpr ⟨hshape.congr hc hd, hcs⟩

theorem nodesOk_setKey (h : NodesOk n) (d : Option V) : NodesOk (setKey n d) := by
  rw [← node_eta n] at h
  exact h.congr_key (by simp) (by simp)

theorem leafOk_setKey (n : RaxNode V) (d : Option V) : LeafOk (setKey n d) := by
  intro _
  simp

theorem nodeCount_setKey (n : RaxNode V) (d : Option V) :
    nodeCount (setKey n d) = nodeCount n := by
  rw [setKey, nodeCount_node, ← nodeCount_node n.label, node_eta]

theorem keyCount_setKey (n : RaxNode V) (d : Option V) :
    keyCount (setKey n d) + (if n.label.iskey then 1 else 0) = keyCount n + 1 := by
  have hn : keyCount n = (if n.label.iskey then 1 else 0) + (n.children.map keyCount).sum := by
    rw [← keyCount_node, node_eta]
  rw [setKey, keyCount_node, hn, raxSetData_iskey, if_pos rfl]
  omega

/-! ### Linking a new leaf -/

/-- What holds of a node that got a new leaf as its `i`-th child. -/
structure Grown (h m : RaxNode V) (i : ℕ) (bytes : Key) : Prop where
  leaf : m.children[i]? = some (raxNewNode [] [])
  edge : edge m.label i = bytes
  lookup : ∀ k, lookup m k = lookup h k
  shapes : ShapesOk m
  data : m.label.data ≠ []
  hole : NodesOk h → ∀ c, NodesOk c → LeafOk c → NodesOk (m.replace [i] c)
  nodes : nodeCount m = nodeCount h + 1
  keys : keyCount m = keyCount h

theorem grown_raxCompressNode {h : RaxNode V} (hchildren : h.children = [])
    (hplain : h.label.iscompr = false) {s : List UInt8} (hs : 2 ≤ s.length) :
    Grown h (raxCompressNode h s) 0 s := by
  have hshape : ShapeOk { h.label with iscompr := true, data := s } 1 :=
    ⟨fun _ => ⟨hs, rfl⟩, fun hc => by simp at hc, fun hc => by simp at hc⟩
  have hne : s ≠ [] := List.ne_nil_of_length_pos (by omega)
  refine ⟨rfl, edge_compr rfl 0, fun k => ?_, ?_, hne, fun _ c hc hleaf => ?_, ?_, ?_⟩
  · rcases k with _ | ⟨b, k⟩
    · rfl
    · rw [raxCompressNode, lookup_compr rfl hne (by simp), ← node_eta h, hchildren,
        lookup_childless (l := h.label) hplain (by simp)]
      simp
  · exact shapesOk_node.mpr ⟨hshape, by simpa using shapesOk_new⟩
  · rw [raxCompressNode]
    simp only [replace_cons, List.modify_zero_cons, replace_nil]
    exact nodesOk_node.mpr ⟨hshape, by simpa using ⟨hleaf, hc⟩⟩
  · rw [raxCompressNode, nodeCount_node, ← node_eta h, nodeCount_node, hchildren]
    simp
  · rw [raxCompressNode, keyCount_node, ← node_eta h, keyCount_node, hchildren]
    simp only [List.map_cons, keyCount_new, List.map_nil, List.sum_cons, List.sum_nil]
    rfl

theorem lookup_plain_of_getElem? (hl : ShapeOk l cs.length)
    (hp : l.iscompr = false) {b : UInt8} {c : RaxNode V} (hb : l.data[i]? = some b)
    (hc : cs[i]? = some c) (k : Key) : lookup (node l cs) (b :: k) = lookup c k := by
  obtain ⟨hi, rfl⟩ := List.getElem?_eq_some_iff.mp hb
  have := lookup_edge (n := node l cs) hl hc k
  rwa [label_node, edge_plain hp hi] at this

/-- The first larger byte is where a new edge keeps the order. -/
theorem sorted_insert {data : List UInt8} (h : data.Pairwise (· < ·)) {c : UInt8}
    (hc : c ∉ data) :
    (data.take (data.findIdx fun b => c < b) ++ c :: data.drop
      (data.findIdx fun b => c < b)).Pairwise
      (· < ·) := by
  set pos := data.findIdx fun b => c < b with hpos
  have hlow : ∀ b ∈ data.take pos, b < c := by
    intro b hb
    obtain ⟨i, hi, rfl⟩ := List.getElem_of_mem hb
    rw [List.length_take] at hi
    rw [List.getElem_take]
    have hne : data[i] ≠ c := fun h => hc (h ▸ List.getElem_mem _)
    have hle : ¬ c < data[i] := by
      simpa using List.not_of_lt_findIdx (show i < data.findIdx fun b => c < b by omega)
    exact UInt8.lt_of_le_of_ne (UInt8.not_lt.mp hle) hne
  have hhigh : ∀ b ∈ data.drop pos, c < b := by
    intro b hb
    have hlt : pos < data.length := by
      by_contra hge
      rw [List.drop_eq_nil_of_le (by omega)] at hb
      simp at hb
    have hfirst : c < data[pos] := by
      simpa using List.findIdx_getElem (w := hlt)
    rw [List.drop_eq_getElem_cons hlt] at hb
    rcases List.mem_cons.mp hb with rfl | hb
    · exact hfirst
    · have hsorted := h
      rw [← List.take_append_drop pos data, List.drop_eq_getElem_cons hlt] at hsorted
      exact UInt8.lt_trans hfirst
        (List.rel_of_pairwise_cons (List.pairwise_append.mp hsorted).2.1 hb)
  rw [List.pairwise_append]
  refine ⟨h.sublist (List.take_sublist _ _), ?_, ?_⟩
  · exact List.pairwise_cons.mpr ⟨hhigh, h.sublist (List.drop_sublist _ _)⟩
  · intro a ha b hb
    rcases List.mem_cons.mp hb with rfl | hb
    · exact hlow a ha
    · exact UInt8.lt_trans (hlow a ha) (hhigh b hb)

theorem take_append_cons_drop {β : Type} {xs : List β} (x : β) (h : i ≤ xs.length) :
    xs.take i ++ x :: xs.drop i = xs.insertIdx i x := by
  induction xs generalizing i with
  | nil =>
    obtain rfl := Nat.le_zero.mp h
    rfl
  | cons y xs ih =>
    cases i with
    | zero => rfl
    | succ i => exact congrArg (y :: ·) (ih (Nat.le_of_succ_le_succ h))

theorem grown_raxAddChild {h : RaxNode V} (hok : ShapesOk h) (hplain : h.label.iscompr = false)
    {c : UInt8} (hc : c ∉ h.label.data) :
    Grown h (raxAddChild h c).1 (raxAddChild h c).2 [c] := by
  obtain ⟨l, cs⟩ := h
  simp only [label_node] at hplain hc
  obtain ⟨hshape, hcs⟩ := shapesOk_node.mp hok
  have hlen := hshape.plain hplain
  have hle : (l.data.findIdx fun b => c < b) ≤ l.data.length := List.findIdx_le_length
  have hsorted := sorted_insert (hshape.sorted hplain) hc
  rw [raxAddChild]
  simp only [label_node, children_node]
  generalize (l.data.findIdx fun b => c < b) = pos at hle hsorted
  have hle' : pos ≤ cs.length := by omega
  rw [take_append_cons_drop c hle] at hsorted ⊢
  rw [take_append_cons_drop _ hle']
  obtain ⟨l', hl'⟩ : ∃ l' : RaxHdr V, l' = { l with data := l.data.insertIdx pos c } := ⟨_, rfl⟩
  obtain ⟨cs', hcs'⟩ : ∃ cs' : List (RaxNode V), cs' = cs.insertIdx pos (raxNewNode [] []) :=
    ⟨_, rfl⟩
  rw [← hl', ← hcs']
  have hplain' : l'.iscompr = false := by rw [hl', hplain]
  have hdata : l'.data = l.data.insertIdx pos c := by rw [hl']
  have hshape' : ShapeOk l' cs'.length := by
    refine ⟨fun hcompr => ?_, fun _ => ?_, fun _ => by rwa [hdata]⟩
    · rw [hplain'] at hcompr
      cases hcompr
    · rw [hcs', hdata, List.length_insertIdx_of_le_length hle',
        List.length_insertIdx_of_le_length hle, hlen]
  have hnew : cs'[pos]? = some (raxNewNode [] []) := by
    rw [hcs', List.getElem?_insertIdx_self, if_pos hle']
  have hdatapos : l'.data[pos]? = some c := by rw [hdata, List.getElem?_insertIdx_self, if_pos hle]
  have hperm : cs'.Perm (raxNewNode [] [] :: cs) := hcs' ▸ List.perm_insertIdx _ cs hle'
  refine ⟨hnew, ?_, fun k => ?_, ?_, List.ne_nil_of_mem (List.mem_of_getElem? hdatapos),
    fun hh d hd hleaf => ?_, ?_, ?_⟩
  · obtain ⟨hlt, hget⟩ := List.getElem?_eq_some_iff.mp hdatapos
    rw [label_node, edge_plain hplain' hlt, hget]
  · rcases k with _ | ⟨b, k⟩
    · rw [hl']
      rfl
    by_cases hbc : b = c
    · subst hbc
      rw [lookup_plain_of_getElem? hshape' hplain' hdatapos hnew, lookup_new,
        lookup_plain_of_not_mem hshape hplain hc]
    by_cases hb : b ∈ l.data
    · obtain ⟨i, hbi⟩ := List.getElem?_of_mem hb
      have hilt := (hshape.lt_iff hplain).mpr (List.getElem?_eq_some_iff.mp hbi).choose
      have hci := List.getElem?_eq_getElem hilt
      rw [lookup_plain_of_getElem? hshape hplain hbi hci]
      -- the other edges and children keep their order around the new one
      by_cases hip : i < pos
      · refine lookup_plain_of_getElem? hshape' hplain' (i := i) ?_ ?_ k
        · rw [hdata, List.getElem?_insertIdx_of_lt hip, hbi]
        · rw [hcs', List.getElem?_insertIdx_of_lt hip, hci]
      · refine lookup_plain_of_getElem? hshape' hplain' (i := i + 1) ?_ ?_ k
        · rw [hdata, List.getElem?_insertIdx_of_gt (by omega), Nat.add_sub_cancel, hbi]
        · rw [hcs', List.getElem?_insertIdx_of_gt (by omega), Nat.add_sub_cancel, hci]
    · have hb' : b ∉ l'.data := by
        rw [hdata, List.mem_insertIdx hle]
        exact not_or.mpr ⟨hbc, hb⟩
      rw [lookup_plain_of_not_mem hshape hplain hb, lookup_plain_of_not_mem hshape' hplain' hb']
  · refine shapesOk_node.mpr ⟨hshape', fun d hd => ?_⟩
    rcases List.mem_cons.mp (hperm.mem_iff.mp hd) with rfl | hd
    · exact shapesOk_new
    · exact hcs d hd
  · obtain ⟨-, hgood⟩ := nodesOk_node.mp hh
    rw [replace_cons]
    refine nodesOk_node.mpr ⟨by rw [List.length_modify]; exact hshape', fun e he => ?_⟩
    have hinsert : (cs'.modify pos fun e => e.replace [] d) = cs.insertIdx pos d := by
      rw [hcs']
      exact List.modifyTailIdx_modifyTailIdx_self _ _
    rw [hinsert] at he
    rcases (List.mem_insertIdx hle').mp he with rfl | he
    · exact ⟨hleaf, hd⟩
    · exact hgood e he
  · rw [nodeCount_node, nodeCount_node, (hperm.map nodeCount).sum_eq, List.map_cons, List.sum_cons,
      nodeCount_new]
    omega
  · have hkey : l'.iskey = l.iskey := by rw [hl']
    rw [keyCount_node, keyCount_node, (hperm.map keyCount).sum_eq, List.map_cons, List.sum_cons,
      keyCount_new, hkey]
    omega

end Rax
