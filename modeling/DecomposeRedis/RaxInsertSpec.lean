/-
What `raxGenericInsert` does when no allocation fails.
-/
import DecomposeRedis.RaxEdit

open RoseTree

namespace Rax

variable {V : Type}

/-! ### Strings cut in two -/

/-- What a node stores for the string that leads to it. -/
def own (l : RaxHdr V) : Option (Option V) := if l.iskey then some (raxGetData l) else none

/-- A header that fits one child, with the string in between not empty. -/
def OneChild (l : RaxHdr V) : Prop :=
  l.data ≠ [] ∧ (l.iscompr = false → l.data.length = 1)

theorem OneChild.edge {l : RaxHdr V} (h : OneChild l) : edge l 0 = l.data := by
  cases hc : l.iscompr with
  | true => exact edge_compr hc 0
  | false =>
    obtain ⟨b, hb⟩ := List.length_eq_one_iff.mp (h.2 hc)
    rw [Rax.edge, if_neg (by simp [hc]), hb]
    rfl

theorem oneChild_stringNode (iskey isnull : Bool) {s : List UInt8} (hs : s ≠ []) :
    OneChild (stringNode iskey isnull s : RaxHdr V) := by
  refine ⟨hs, fun h => ?_⟩
  have hlen : ¬ 1 < s.length := by simpa [stringNode] using h
  have : 0 < s.length := List.length_pos_of_ne_nil hs
  change s.length = 1
  omega

theorem shapeOk_stringNode (iskey isnull : Bool) {s : List UInt8} (hs : s ≠ []) :
    ShapeOk (stringNode iskey isnull s : RaxHdr V) 1 := by
  refine ⟨fun h => ⟨?_, rfl⟩, fun h => ?_, fun h => ?_⟩
  · have : 1 < s.length := by simpa [stringNode] using h
    exact this
  · exact ((oneChild_stringNode iskey isnull hs).2 h).symm
  · obtain ⟨b, hb⟩ := List.length_eq_one_iff.mp ((oneChild_stringNode iskey isnull hs).2 h)
    rw [hb]
    exact List.pairwise_singleton _ _

/-- Two string nodes in a row, the lower one no key, read like one node with the
joined string. -/
theorem lookup_join {l₁ l₂ l : RaxHdr V} {c : RaxNode V} (h₁ : OneChild l₁) (h₂ : OneChild l₂)
    (h : OneChild l) (hdata : l.data = l₁.data ++ l₂.data) (hown : own l = own l₁)
    (hkey : l₂.iskey = false) (k : Key) :
    lookup (node l₁ [node l₂ [c]]) k = lookup (node l [c]) k := by
  by_cases hk : k = []
  · subst hk
    exact hown.symm
  rw [lookup_single h₁.1 h₁.2 hk, lookup_single h.1 h.2 hk, hdata]
  by_cases hp : l₁.data <+: k
  · obtain ⟨k, rfl⟩ := hp
    rw [if_pos (List.prefix_append _ _), List.drop_left]
    simp only [List.prefix_append_right_inj, List.length_append, List.drop_length_add_append]
    by_cases hk' : k = []
    · subst hk'
      rw [lookup_nil, label_node, hkey, if_neg (by simp), if_neg]
      intro hpre
      exact h₂.1 (List.prefix_nil.mp hpre)
    · exact lookup_single h₂.1 h₂.2 hk'
  · rw [if_neg hp, if_neg fun hpre => hp ((List.prefix_append _ _).trans hpre)]

/-- The node `m` stands for the same map as `n` and may take its place. -/
structure Same (n m : RaxNode V) (extra : ℕ) : Prop where
  lookup : ∀ k, lookup m k = lookup n k
  nodes : NodesOk m
  data : m.label.data ≠ []
  nodeCount : nodeCount m = nodeCount n + extra
  keyCount : keyCount m = keyCount n

variable {n : RaxNode V} {p : NodePtr} {t : RaxTree V} {s : Key}

theorem Same.nodesOk_replace {t m : RaxNode V} {extra : ℕ} (hm : Same n m extra)
    (ht : NodesOk t) (hn : t.nodeAt p = some n) : NodesOk (t.replace p m) :=
  ht.replace hn hm.nodes fun _ h0 => absurd h0 hm.data

theorem spell_replace_append {t : RaxNode V} (m : RaxNode V) (q : NodePtr)
    (hn : t.nodeAt p = some n) : spell (t.replace p m) (p ++ q) = spell t p ++ spell m q := by
  rw [spell_append q (nodeAt_replace m hn), spell_replace m hn]

/-- The tree `t` stands for the same map as `t₀`, and its counters went along
with the nodes. -/
structure SameMap (t₀ t : RaxTree V) : Prop where
  lookup : ∀ k, lookup t.head k = lookup t₀.head k
  numele : t.numele = t₀.numele
  numnodes : t.numnodes + nodeCount t₀.head = t₀.numnodes + nodeCount t.head
  keys : keyCount t.head = keyCount t₀.head

theorem SameMap.trans {t₀ t₁ t₂ : RaxTree V} (h : SameMap t₀ t₁) (h' : SameMap t₁ t₂) :
    SameMap t₀ t₂ := by
  refine ⟨fun k => (h'.lookup k).trans (h.lookup k), h'.numele.trans h.numele, ?_,
    h'.keys.trans h.keys⟩
  have h1 := h.numnodes
  have h2 := h'.numnodes
  omega

/-- Exchanging one node. -/
theorem sameMap_replace {m : RaxNode V} {extra : ℕ} (ht : ShapesOk t.head)
    (hn : t.head.nodeAt p = some n) (hlookup : ∀ k, Rax.lookup m k = Rax.lookup n k)
    (hnodes : nodeCount m = nodeCount n + extra) (hkeys : keyCount m = keyCount n) :
    SameMap t { t with
      head := t.head.replace p m
      numnodes := t.numnodes + extra } := by
  have h1 := nodeCount_replace m hn
  have h2 := keyCount_replace m hn
  refine ⟨lookup_replace_of_same ht hn hlookup, rfl, ?_, ?_⟩
  · simp only
    omega
  · simp only
    omega

section Split

variable {l l' : RaxHdr V} {next : RaxNode V} {j : ℕ}

theorem take_one_drop (hj : j < l.data.length) : (l.data.drop j).take 1 = [l.data[j]] := by
  simp [List.take_one, List.getElem?_eq_getElem hj]

/-- What the trimmed nodes of both algorithms have in common: the first `j`
bytes of the string, and the key as it was. -/
structure Trimmed (l : RaxHdr V) (j : ℕ) (l' : RaxHdr V) : Prop where
  data : l'.data = l.data.take j
  iscompr : l'.iscompr = decide (1 < (l.data.take j).length)
  iskey : l'.iskey = l.iskey
  own : own l' = own l

theorem trimmed_splitTrimmed (l : RaxHdr V) (j : ℕ) : Trimmed l j (splitTrimmed l j) := by
  rw [splitTrimmed]
  cases hk : l.iskey <;> cases hn : l.isnull
  · constructor <;> simp [own, hk, stringNode]
  · constructor <;> simp [own, hk, stringNode]
  · constructor <;> simp [own, hk, stringNode]
  · constructor <;> simp [own, hk, hn, stringNode, raxGetData]

theorem trimmed_trimmedAtEnd (l : RaxHdr V) (j : ℕ) : Trimmed l j (trimmedAtEnd l j) := by
  rw [trimmedAtEnd]
  cases hk : l.iskey <;> constructor <;> simp [own, hk, stringNode]

theorem Trimmed.shapeOk (h : Trimmed l j l') (hj : j ≠ 0) (hlen : j < l.data.length) :
    ShapeOk l' 1 := by
  have hne : l.data.take j ≠ [] := List.ne_nil_of_length_pos (by rw [List.length_take]; omega)
  exact (shapeOk_stringNode false false hne).congr h.iscompr h.data

theorem Trimmed.oneChild (h : Trimmed l j l') (hj : j ≠ 0) (hlen : j < l.data.length) :
    OneChild l' := by
  have hne : l.data.take j ≠ [] := List.ne_nil_of_length_pos (by rw [List.length_take]; omega)
  refine ⟨by rw [h.data]; exact hne, fun hplain => ?_⟩
  rw [h.data]
  exact (oneChild_stringNode (V := V) false false hne).2 (h.iscompr.symm.trans hplain)

/-- A string node cut before the byte `j`, if what hangs below reads like the
rest of the string. -/
theorem Trimmed.same (h : Trimmed l j l') (hj : j ≠ 0) (hlen : j < l.data.length)
    (hl : OneChild l) {sub : RaxNode V} {extra : ℕ}
    (hsub : Same (node (stringNode false false (l.data.drop j)) [next]) sub extra) :
    Same (node l [next]) (node l' [sub]) (1 + extra) := by
  have hone := h.oneChild hj hlen
  have hne : l.data.drop j ≠ [] := List.ne_nil_of_length_pos (by rw [List.length_drop]; omega)
  refine ⟨fun k => ?_, ?_, hone.1, ?_, ?_⟩
  · rw [← lookup_join hone (oneChild_stringNode false false hne) hl
      (by rw [h.data]; exact (List.take_append_drop j l.data).symm) h.own.symm rfl k]
    by_cases hk : k = []
    · subst hk
      rfl
    · rw [lookup_single hone.1 hone.2 hk, lookup_single hone.1 hone.2 hk, hsub.lookup]
  · refine nodesOk_node.mpr ⟨h.shapeOk hj hlen, ?_⟩
    simpa using ⟨fun h0 => absurd h0 hsub.data, hsub.nodes⟩
  · have := hsub.nodeCount
    simp only [nodeCount_node, List.map_cons, List.map_nil, List.sum_cons, List.sum_nil] at this ⊢
    omega
  · have := hsub.keyCount
    simp only [keyCount_node, List.map_cons, List.map_nil, List.sum_cons, List.sum_nil] at this ⊢
    rw [h.iskey]
    simp only [stringNode] at this
    simpa using this

/-- The header of the split node. -/
theorem splitNode_eq (l : RaxHdr V) (j : ℕ) (next : RaxNode V) :
    ∃ l' : RaxHdr V, splitNode l j next = node l' [splitPostfix l j next] ∧
      l'.iscompr = false ∧ l'.data = (l.data.drop j).take 1 ∧
      l'.iskey = (decide (j = 0) && l.iskey) ∧ own l' = if j = 0 then own l else none := by
  rw [splitNode]
  by_cases hj : j = 0
  · cases hk : l.iskey with
    | true =>
      refine ⟨_, by rw [if_pos (by simp [hj])]; rfl, ?_⟩
      simp [raxNewNode, hj, own, hk]
    | false =>
      refine ⟨_, by rw [if_neg (by simp)]; rfl, ?_⟩
      simp [own, hk, hj]
  · refine ⟨_, by rw [if_neg (by simp [hj])]; rfl, ?_⟩
    simp [own, hj]

theorem nodesOk_splitPostfix (hnext : NodesOk next) (hleaf : LeafOk next) :
    NodesOk (splitPostfix l j next) ∧ LeafOk (splitPostfix l j next) := by
  rw [splitPostfix]
  by_cases h : l.size - j - 1 = 0
  · rw [if_neg (by simpa using h)]
    exact ⟨hnext, hleaf⟩
  · rw [if_pos h]
    have hne : l.data.drop (j + 1) ≠ [] := by
      refine List.ne_nil_of_length_pos ?_
      rw [List.length_drop]
      rw [RaxHdr.size] at h
      omega
    refine ⟨nodesOk_node.mpr ⟨shapeOk_stringNode false false hne, by simpa using ⟨hleaf, hnext⟩⟩,
      fun h0 => absurd h0 hne⟩

/-- The split node before its second child is added reads like the part of the
string from the byte that differs on. -/
theorem lookup_splitNode (hj : j < l.data.length) (h' : OneChild l')
    (hdata : l'.data = l.data.drop j) (hown : own l' = if j = 0 then own l else none) (k : Key) :
    lookup (splitNode l j next) k = lookup (node l' [next]) k := by
  obtain ⟨ls, hs, hsplain, hsdata, -, hsown⟩ := splitNode_eq l j next
  rw [take_one_drop hj] at hsdata
  have hsone : OneChild ls := ⟨by simp [hsdata], fun _ => by simp [hsdata]⟩
  rw [hs, splitPostfix]
  by_cases h : l.size - j - 1 = 0
  · -- Nothing is left of the string.
    rw [if_neg (by simpa using h)]
    have hd : l'.data = ls.data := by
      rw [hdata, hsdata, List.drop_eq_getElem_cons hj, List.drop_eq_nil_of_le]
      rw [RaxHdr.size] at h
      omega
    by_cases hk : k = []
    · subst hk
      exact hsown.trans hown.symm
    · rw [lookup_single hsone.1 hsone.2 hk, lookup_single h'.1 h'.2 hk, hd]
  · rw [if_pos h]
    have hne : l.data.drop (j + 1) ≠ [] := by
      refine List.ne_nil_of_length_pos ?_
      rw [List.length_drop]
      rw [RaxHdr.size] at h
      omega
    refine lookup_join hsone (oneChild_stringNode false false hne) h' ?_
      (hown.trans hsown.symm) rfl k
    rw [hdata, hsdata, List.drop_eq_getElem_cons hj]
    rfl

theorem nodesOk_splitNode (hj : j < l.data.length) (hnext : NodesOk next) (hleaf : LeafOk next) :
    NodesOk (splitNode l j next) ∧ (splitNode l j next).label.data = [l.data[j]] := by
  obtain ⟨ls, hs, hsplain, hsdata, -, -⟩ := splitNode_eq l j next
  rw [take_one_drop hj] at hsdata
  obtain ⟨hpost, hpostleaf⟩ := nodesOk_splitPostfix (l := l) (j := j) hnext hleaf
  refine ⟨?_, by rw [hs]; exact hsdata⟩
  rw [hs]
  refine nodesOk_node.mpr ⟨⟨fun h => ?_, fun _ => ?_, fun _ => ?_⟩,
    by simpa using ⟨hpostleaf, hpost⟩⟩
  · rw [hsplain] at h
    cases h
  · simp [hsdata]
  · rw [hsdata]
    exact List.pairwise_singleton _ _

theorem count_splitNode (l : RaxHdr V) (j : ℕ) (next : RaxNode V) :
    nodeCount (splitNode l j next) = nodeCount next + 1 + (if l.size - j - 1 ≠ 0 then 1 else 0) ∧
      keyCount (splitNode l j next) = keyCount next + (if j = 0 ∧ l.iskey then 1 else 0) := by
  obtain ⟨ls, hs, -, -, hkey, -⟩ := splitNode_eq l j next
  rw [hs, nodeCount_node, keyCount_node, hkey, splitPostfix]
  split_ifs <;> simp_all [nodeCount_node, keyCount_node, stringNode] <;> omega

/-- The split node may take the place of the part of the string from the byte
that differs on. -/
theorem same_splitNode (hj : j < l.data.length) (hnext : NodesOk next) (hleaf : LeafOk next)
    (h' : OneChild l') (hdata : l'.data = l.data.drop j)
    (hkey : l'.iskey = (decide (j = 0) && l.iskey))
    (hown : own l' = if j = 0 then own l else none) :
    Same (node l' [next]) (splitNode l j next) (if l.size - j - 1 ≠ 0 then 1 else 0) := by
  obtain ⟨hsplit, hsdata⟩ := nodesOk_splitNode hj hnext hleaf
  obtain ⟨hnodes, hkeys⟩ := count_splitNode l j next
  refine ⟨lookup_splitNode hj h' hdata hown, hsplit, by simp [hsdata], ?_, ?_⟩
  · rw [hnodes, nodeCount_node]
    simp
    omega
  · rw [hkeys, keyCount_node, hkey]
    simp
    omega

/-- ALGO 1 does not change the map of the node it splits. -/
theorem same_split (hl : OneChild l) (hnext : NodesOk next) (hleaf : LeafOk next)
    (hj : j < l.data.length) :
    Same (node l [next])
      (if j = 0 then splitNode l j next else node (splitTrimmed l j) [splitNode l j next])
      ((if j = 0 then 0 else 1) + if l.size - j - 1 ≠ 0 then 1 else 0) := by
  by_cases hj0 : j = 0
  · subst hj0
    rw [if_pos rfl, if_pos rfl, Nat.zero_add]
    exact same_splitNode hj hnext hleaf hl (by simp) (by simp) (by simp)
  · rw [if_neg hj0, if_neg hj0]
    have hne : l.data.drop j ≠ [] := List.ne_nil_of_length_pos (by rw [List.length_drop]; omega)
    refine (trimmed_splitTrimmed l j).same hj0 hj hl ?_
    exact same_splitNode hj hnext hleaf (oneChild_stringNode false false hne) rfl
      (by simp [hj0, stringNode]) (by rw [if_neg hj0]; rfl)

/-- ALGO 2 does not change the map before it makes the lower part a key. -/
theorem same_splitAtEnd (hl : OneChild l) (hnext : NodesOk next) (hleaf : LeafOk next)
    (hj0 : j ≠ 0) (hj : j < l.data.length) :
    Same (node l [next])
      (node (trimmedAtEnd l j) [node (stringNode false false (l.data.drop j)) [next]]) 1 := by
  have hne : l.data.drop j ≠ [] := List.ne_nil_of_length_pos (by rw [List.length_drop]; omega)
  have hok : NodesOk (node (stringNode false false (l.data.drop j)) [next]) :=
    nodesOk_node.mpr ⟨shapeOk_stringNode false false hne, by simpa using ⟨hleaf, hnext⟩⟩
  exact (trimmed_trimmedAtEnd l j).same hj0 hj hl ⟨fun k => rfl, hok, hne,
    (Nat.add_zero _).symm, rfl⟩

end Split

/-! ### The insertion loop -/

/-- The invariant of the loop: the tree stands for the map it stood for at the
beginning `t₀`, the node `h` reached by the bytes inserted so far has no edge
for the next one, and it may become a key. -/
structure Growing (t₀ : RaxTree V) (s : Key) (st : Insertion V) (h : RaxNode V) : Prop where
  nodeAt : st.rax.head.nodeAt st.ptr = some h
  le : st.i ≤ s.length
  spelled : spell st.rax.head st.ptr = s.take st.i
  shapes : ShapesOk st.rax.head
  hole : Hole st.rax.head st.ptr
  nodes : NodesOk h
  plain : h.label.iscompr = false
  missing : ∀ c rest, s.drop st.i = c :: rest → c ∉ h.label.data
  same : SameMap t₀ st.rax

section Loop

variable {t₀ : RaxTree V} {s : Key} {st : Insertion V} {h : RaxNode V}

theorem Growing.congr_allocs (hst : Growing t₀ s st h) (a : Allocs) :
    Growing t₀ s { st with allocs := a } h :=
  ⟨hst.nodeAt, hst.le, hst.spelled, hst.shapes, hst.hole, hst.nodes, hst.plain, hst.missing,
    hst.same⟩

/-- One more node, `bytes` further down the key. -/
theorem Growing.grow (hst : Growing t₀ s st h) {m : RaxNode V} {i : ℕ} {bytes : Key}
    (hm : Grown h m i bytes) (hs : bytes <+: s.drop st.i) (a : Allocs) :
    Growing t₀ s
      { rax := { st.rax with
          head := st.rax.head.replace st.ptr m
          numnodes := st.rax.numnodes + 1 }
        ptr := st.ptr ++ [i]
        i := st.i + bytes.length
        allocs := a } (raxNewNode [] []) := by
  obtain ⟨rest, hs⟩ := hs
  have hat := nodeAt_replace m hst.nodeAt
  have hchild : (st.rax.head.replace st.ptr m).nodeAt (st.ptr ++ [i])
      = some (raxNewNode [] []) := by
    rw [nodeAt_append, hat, Option.bind_some]
    exact nodeAt_cons_eq_some.mpr ⟨_, hm.leaf, nodeAt_nil _⟩
  have hlen : st.i + bytes.length ≤ s.length := by
    have := congrArg List.length hs
    have hle := hst.le
    rw [List.length_drop, List.length_append] at this
    omega
  refine ⟨hchild, hlen, ?_, ?_, ?_, nodesOk_new, rfl, fun c rest _ => ?_, ?_⟩
  · change spell (st.rax.head.replace st.ptr m) (st.ptr ++ [i]) = s.take (st.i + bytes.length)
    rw [spell_append _ hat, spell_replace m hst.nodeAt, hst.spelled, spell_cons _ hm.leaf,
      hm.edge, spell_nil, List.append_nil, List.take_add, ← hs, List.take_left]
  · exact hst.shapes.replace hst.nodeAt hm.shapes
  · exact hst.hole.below hst.nodeAt hm.data (hm.hole hst.nodes)
  · simp [raxNewNode]
  · exact hst.same.trans (sameMap_replace hst.shapes hst.nodeAt hm.lookup hm.nodes hm.keys)

/-- The body of the loop keeps the invariant and arrives at a new leaf. -/
theorem Growing.step (hst : Growing t₀ s st h) {c : UInt8} {rest : Key}
    (hs : s.drop st.i = c :: rest) :
    Growing t₀ s (insertStep st h c rest) (raxNewNode [] []) ∧
      st.i < (insertStep st h c rest).i := by
  rw [insertStep]
  split_ifs with hcond
  · -- The rest of the key goes into a compressed node.
    obtain ⟨hsize, hrest⟩ := hcond
    have hlen : 0 < rest.length := List.length_pos_of_ne_nil hrest
    have hmax : 2 ≤ raxNodeMaxSize := by decide
    have hbytes : ((c :: rest).take (min (rest.length + 1) raxNodeMaxSize)).length
        = min (rest.length + 1) raxNodeMaxSize := by
      rw [List.length_take, List.length_cons]
      omega
    have hdata : h.label.data = [] := List.length_eq_zero_iff.mp hsize
    have hchildren : h.children = [] := by
      have := (hst.shapes.shapeAt hst.nodeAt).plain hst.plain
      rw [hdata] at this
      exact List.length_eq_zero_iff.mp this
    have hgrown := grown_raxCompressNode hchildren hst.plain
      (s := (c :: rest).take (min (rest.length + 1) raxNodeMaxSize)) (by omega)
    have := hst.grow hgrown (by rw [hs]; exact List.take_prefix _ _) (growAllocs st.allocs).2
    rw [hbytes] at this
    refine ⟨this, ?_⟩
    simp only
    omega
  · -- One byte becomes an edge.
    have hgrown := grown_raxAddChild (hst.nodes.shapes) hst.plain (hst.missing c rest hs)
    exact ⟨hst.grow hgrown (by rw [hs]; exact ⟨rest, rfl⟩) (growAllocs st.allocs).2,
      Nat.lt_succ_self _⟩

theorem growAllocs_cases (a : Allocs) :
    (growAllocs a).1 = true ∧ Granted a (growAllocs a).2 ∨
      (growAllocs a).1 = false ∧ Failed a (growAllocs a).2 := by
  rw [growAllocs]
  by_cases h1 : a.head = .null
  · rw [if_pos h1]
    exact .inr ⟨rfl, failed_tail h1⟩
  rw [if_neg h1]
  by_cases h2 : a.tail.head = .null
  · exact .inr ⟨by simp [h2], (Granted.tail h1).failed (failed_tail h2)⟩
  · exact .inl ⟨by simpa using h2, (Granted.tail h1).trans (Granted.tail h2)⟩

theorem raxReallocForData_cases (data : Option V) (a : Allocs) :
    (raxReallocForData data a).1 = true ∧ Granted a (raxReallocForData data a).2 ∨
      (raxReallocForData data a).1 = false ∧ Failed a (raxReallocForData data a).2 := by
  cases data with
  | none => exact .inl ⟨rfl, Granted.refl a⟩
  | some v =>
    by_cases h : a.head = .null
    · exact .inr ⟨by simp [raxReallocForData, h], failed_tail h⟩
    · exact .inl ⟨by simpa [raxReallocForData] using h, Granted.tail h⟩

/-- The state a run of the loop ends in: nothing was done, which can only be for
a failed allocation, or the node is a new leaf. -/
def Grew (s : Key) (st st' : Insertion V) (h h' : RaxNode V) : Prop :=
  (st'.rax = st.rax ∧ st'.ptr = st.ptr ∧ st'.i = st.i ∧ h' = h ∧
    (st.i < s.length → (growAllocs st.allocs).1 = false)) ∨ h' = raxNewNode [] []

/-- A property of the loop that every turn keeps. -/
structure LoopInvariant (t₀ : RaxTree V) (s : Key) (P : Insertion V → RaxNode V → Prop) :
    Prop where
  turn : ∀ st h c rest, Growing t₀ s st h → P st h → s.drop st.i = c :: rest →
    P (insertStep st h c rest) (raxNewNode [] [])
  allocs : ∀ st h a, P st h → P { st with allocs := a } h

theorem insertLoop_spec {P : Insertion V → RaxNode V → Prop} (hP : LoopInvariant t₀ s P) :
    ∀ fuel (st : Insertion V) (h : RaxNode V), Growing t₀ s st h → P st h →
    s.length - st.i ≤ fuel →
    ∃ fin st' h', insertLoop s fuel st = some (fin, st') ∧ Growing t₀ s st' h' ∧ P st' h' ∧
      Grew s st st' h h' ∧
      (fin = true ∧ st'.i = s.length ∧ Granted st.allocs st'.allocs ∨
        fin = false ∧ Failed st.allocs st'.allocs) := by
  intro fuel
  induction fuel with
  | zero =>
    intro st h hst hp hfuel
    exact ⟨true, st, h, rfl, hst, hp, .inl ⟨rfl, rfl, rfl, rfl, by omega⟩,
      .inl ⟨rfl, by have := hst.le; omega, Granted.refl _⟩⟩
  | succ fuel ih =>
    intro st h hst hp hfuel
    rw [insertLoop]
    rcases hs : s.drop st.i with _ | ⟨c, rest⟩
    · have hend := List.drop_eq_nil_iff.mp hs
      exact ⟨true, st, h, rfl, hst, hp, .inl ⟨rfl, rfl, rfl, rfl, by omega⟩,
        .inl ⟨rfl, by have := hst.le; omega, Granted.refl _⟩⟩
    simp only [hst.nodeAt, Option.bind_some]
    rw [if_neg (by simp [hst.plain])]
    rcases growAllocs_cases st.allocs with ⟨hgrow, hused⟩ | ⟨hgrow, hfailed⟩
    · rw [if_neg (by simp [hgrow])]
      obtain ⟨hnext, hlt⟩ := hst.step hs
      obtain ⟨fin, st', h', hloop, hst', hp', hgrew, hfin⟩ :=
        ih _ _ hnext (hP.turn st h c rest hst hp hs) (by omega)
      have hallocs : (insertStep st h c rest).allocs = (growAllocs st.allocs).2 := by
        rw [insertStep]
        split_ifs <;> rfl
      rw [hallocs] at hfin
      refine ⟨fin, st', h', hloop, hst', hp', ?_, ?_⟩
      · rcases hgrew with ⟨-, -, -, hh, -⟩ | hh
        · exact .inr hh
        · exact .inr hh
      · rcases hfin with ⟨hfin, hi, hu⟩ | ⟨hfin, hf⟩
        · exact .inl ⟨hfin, hi, hused.trans hu⟩
        · exact .inr ⟨hfin, hused.failed hf⟩
    · rw [if_pos hgrow]
      exact ⟨false, _, h, rfl, hst.congr_allocs _, hP.allocs st h _ hp,
        .inl ⟨rfl, rfl, rfl, rfl, fun _ => hgrow⟩, .inr ⟨rfl, hfailed⟩⟩

end Loop

/-! ### The whole insertion -/

/-- The tree is well formed and its counters are right. -/
structure RaxOk (t : RaxTree V) : Prop where
  nodes : NodesOk t.head
  numele : t.numele = keyCount t.head
  numnodes : t.numnodes = nodeCount t.head

/-- `r` is the tree `t` with `data` newly stored under `s`. -/
structure Inserted (t : RaxTree V) (s : Key) (data : Option V) (r : RaxTree V) : Prop where
  nodes : NodesOk r.head
  updates : Updates t.head r.head s (some data)
  numele : r.numele = t.numele + 1
  keys : keyCount r.head = keyCount t.head + 1
  numnodes : r.numnodes + nodeCount t.head = t.numnodes + nodeCount r.head

theorem Inserted.raxOk {r : RaxTree V} {data : Option V} (h : Inserted t s data r) (ht : RaxOk t) :
    RaxOk r := by
  refine ⟨h.nodes, ?_, ?_⟩
  · rw [h.numele, h.keys, ht.numele]
  · have h1 := h.numnodes
    have h2 := ht.numnodes
    omega

theorem Inserted.of_same {t₀ r : RaxTree V} {data : Option V}
    (h : Inserted t s data r) (hsame : SameMap t₀ t) : Inserted t₀ s data r := by
  refine ⟨h.nodes, fun k => ?_, ?_, ?_, ?_⟩
  · rw [h.updates k, hsame.lookup]
  · rw [h.numele, hsame.numele]
  · rw [h.keys, hsame.keys]
  · have h1 := h.numnodes
    have h2 := hsame.numnodes
    omega

/-- Making the node at `p` a key, in a tree that may have a hole there. -/
theorem inserted_setKey (hn : t.head.nodeAt p = some n) (hshapes : ShapesOk t.head)
    (hhole : Hole t.head p) (hok : NodesOk n) (hkey : n.label.iskey = false) (data : Option V) :
    Inserted t (spell t.head p) data { t with
      head := t.head.replace p (setKey n data)
      numele := t.numele + 1 } := by
  refine ⟨hhole _ (nodesOk_setKey hok data) fun _ => leafOk_setKey n data, ?_, rfl, ?_, ?_⟩
  · have := (updates_setKey n data).replace hshapes hn
    rwa [List.append_nil] at this
  · have h1 := keyCount_replace (setKey n data) hn
    have h2 := keyCount_setKey n data
    rw [hkey, if_neg (by simp)] at h2
    simp only
    omega
  · have h1 := nodeCount_replace (setKey n data) hn
    have h2 := nodeCount_setKey n data
    simp only
    omega

/-- The end of the insertion: the node reached becomes the key. -/
theorem Growing.finish {t₀ : RaxTree V} {st : Insertion V} {h : RaxNode V}
    (hst : Growing t₀ s st h) (hend : st.i = s.length) (hkey : h.label.iskey = false)
    (data : Option V) :
    Inserted t₀ s data { st.rax with
      head := st.rax.head.replace st.ptr (setKey h data)
      numele := st.rax.numele + 1 } := by
  have hins := inserted_setKey hst.nodeAt hst.shapes hst.hole hst.nodes hkey data
  rw [hst.spelled, hend, List.take_length] at hins
  exact hins.of_same hst.same

/-- The loop may start below a node that was exchanged for one with the same
map. -/
theorem growing_of_same {q : NodePtr} {m h : RaxNode V}
    {extra i : ℕ} (ht : NodesOk t.head) (hn : t.head.nodeAt p = some n) (hm : Same n m extra)
    (hq : m.nodeAt q = some h) (hplain : h.label.iscompr = false) (hle : i ≤ s.length)
    (hspell : s.take i = spell t.head p ++ spell m q)
    (hmissing : ∀ c rest, s.drop i = c :: rest → c ∉ h.label.data) (a : Allocs) :
    Growing t s ⟨{ t with
      head := t.head.replace p m
      numnodes := t.numnodes + extra }, p ++ q, i, a⟩ h := by
  have hok := hm.nodesOk_replace ht hn
  have hnode := nodeAt_replace_append m q hn
  rw [hq] at hnode
  refine ⟨hnode, hle, ?_, hok.shapes, hok.hole hnode, hok.nodeAt hnode, hplain, hmissing,
    sameMap_replace ht.shapes hn hm.lookup hm.nodeCount hm.keyCount⟩
  change spell (t.head.replace p m) (p ++ q) = s.take i
  rw [spell_replace_append m q hn, hspell]

section Cases

variable {t : RaxTree V} {s : Key} {a : Allocs} {w : Walk V} {ts : Option RaxStack}

/-- The state in which `insertRest` takes the exit `oom`, if it does. -/
def restOom (s : Key) (data : Option V) (st : Insertion V) : Option (Insertion V) := do
  let (finished, st) ← insertLoop s (s.length - st.i) st
  if finished = false then some st
  else if (raxReallocForData data st.allocs).1 = false then
    some { st with allocs := (raxReallocForData data st.allocs).2 }
  else none

/-- The rest of the insertion: the key is stored, or the exit `oom` is taken. -/
theorem insertRest_spec {P : Insertion V → RaxNode V → Prop} {t₀ : RaxTree V} {st : Insertion V}
    {h : RaxNode V} (hP : LoopInvariant t₀ s P) (hst : Growing t₀ s st h) (hp : P st h)
    (hlt : st.i < s.length) (data : Option V) :
    (∃ st' h', insertRest s data st = some ⟨{ st'.rax with
        head := st'.rax.head.replace st'.ptr (setKey h' data)
        numele := st'.rax.numele + 1 }, 1, none, .untouched⟩ ∧ Growing t₀ s st' h' ∧ P st' h' ∧
      st'.i = s.length ∧ h' = raxNewNode [] [] ∧ restOom s data st = none) ∨
    ∃ st' h', insertRest s data st = insertOom s st' ∧ Growing t₀ s st' h' ∧ P st' h' ∧
      Grew s st st' h h' ∧ Failed st.allocs st'.allocs ∧ restOom s data st = some st' := by
  obtain ⟨fin, st', h', hloop, hst', hp', hgrew, hfin⟩ :=
    insertLoop_spec hP (s.length - st.i) st h hst hp le_rfl
  rcases hfin with ⟨rfl, hend, hused⟩ | ⟨rfl, hfailed⟩
  · have hh : h' = raxNewNode [] [] := by
      rcases hgrew with ⟨-, -, hi, -⟩ | hh
      · omega
      · exact hh
    have hkey : h'.label.iskey = false := by rw [hh]; rfl
    rcases raxReallocForData_cases data st'.allocs with ⟨hroom, -⟩ | ⟨hroom, hfailed⟩
    · refine .inl ⟨st', h', ?_, hst', hp', hend, hh, by simp [restOom, hloop, hroom]⟩
      simp [insertRest, hloop, hroom, hst'.nodeAt, hkey, setKey]
    · refine .inr ⟨_, h', ?_, hst'.congr_allocs _, hP.allocs st' h' _ hp', .inr hh,
        hused.failed hfailed, by simp [restOom, hloop, hroom]⟩
      simp [insertRest, hloop, hroom]
  · exact .inr ⟨st', h', by simp [insertRest, hloop], hst', hp', hgrew, hfailed,
      by simp [restOom, hloop]⟩

/-- The node found, when the walk stops in a compressed node. -/
theorem WalkSpec.compr_eq (ht : NodesOk t.head) (h : WalkSpec t.head s ts a w)
    (hc : w.h.label.iscompr = true) :
    ∃ next, w.h = node w.h.label [next] ∧ NodesOk next ∧ LeafOk next ∧
      OneChild w.h.label := by
  have hshape := ht.shapes.shapeAt h.nodeAt
  obtain ⟨next, hnext⟩ := List.length_eq_one_iff.mp (hshape.compr hc).2
  have hn := ht.nodeAt h.nodeAt
  have heq : w.h = node w.h.label [next] := by rw [← hnext, node_eta]
  rw [heq] at hn
  obtain ⟨-, hcs⟩ := nodesOk_node.mp hn
  obtain ⟨hleaf, hok⟩ := hcs next (by simp)
  have hlen := (hshape.compr hc).1
  exact ⟨next, heq, hok, hleaf, List.ne_nil_of_length_pos (by omega),
    fun hplain => by simp [hc] at hplain⟩

theorem pushAll_none (a : Allocs) (l : List NodePtr) : pushAll none a l = (none, a) := by
  induction l with
  | nil => rfl
  | cons ptr l ih => exact ih

theorem WalkSpec.allocs_eq {t : RaxNode V} (h : WalkSpec t s none a w) : w.allocs = a := by
  have := h.stack
  rw [pushAll_none] at this
  exact (Prod.mk.inj this).2

/-- A plain node stopped at is ready for the rest of the key. -/
theorem WalkSpec.growing (ht : NodesOk t.head) (h : WalkSpec t.head s ts a w)
    (hc : w.h.label.iscompr = false) :
    Growing t s ⟨t, w.ptr, w.i, w.allocs⟩ w.h := by
  refine ⟨h.nodeAt, h.le, ?_, ht.shapes, ht.hole h.nodeAt, ht.nodeAt h.nodeAt, hc,
    fun c rest hs => h.stopPlain c rest hs hc, fun k => rfl, rfl, rfl, rfl⟩
  rw [h.spelled, h.plain hc, List.take_zero, List.append_nil]

/-- After ALGO 1 the split node is ready for the rest of the key. -/
theorem splitDiffer_spec (ht : NodesOk t.head) (h : WalkSpec t.head s ts a w)
    (hc : w.h.label.iscompr = true) :
    splitDiffer t w = some none ∧ ¬ NoFail w.allocs ∨
    ∃ t' ptr a' h', splitDiffer t w = some (some (t', ptr, a')) ∧
      Growing t s ⟨t', ptr, w.i, a'⟩ h' ∧ h'.label.size = 1 ∧ Granted w.allocs a' ∧
      ∃ next, w.h.children = [next] ∧ h' = splitNode w.h.label w.j next ∧
        (ptr = w.ptr ∧ t'.head = t.head.replace w.ptr h' ∨
          ptr = w.ptr ++ [0] ∧ w.j ≠ 0 ∧
            t'.head = t.head.replace w.ptr (node (splitTrimmed w.h.label w.j) [h'])) := by
  obtain ⟨next, hw, hnext, hleaf, hone⟩ := h.compr_eq ht hc
  have hchildren : w.h.children = [next] := by rw [hw]; rfl
  have hj := h.compr hc
  have hlast : w.h.children.getLast? = some next := by rw [hw]; rfl
  have hsame := same_split hone hnext hleaf hj
  rw [← hw] at hsame
  obtain ⟨-, hsdata⟩ := nodesOk_splitNode hj hnext hleaf
  obtain ⟨ls, hls, hlsplain, -, -, -⟩ := splitNode_eq w.h.label w.j next
  have hsplain : (splitNode w.h.label w.j next).label.iscompr = false := by rw [hls]; exact hlsplain
  -- The byte of the node differs from that of the key.
  have hmissing : ∀ c rest, s.drop w.i = c :: rest →
      c ∉ (splitNode w.h.label w.j next).label.data := by
    intro c rest hs hmem
    rw [hsdata, List.mem_singleton] at hmem
    exact h.stopCompr c rest hs hc _ _ (List.drop_eq_getElem_cons hj) hmem.symm
  have hsize : (splitNode w.h.label w.j next).label.size = 1 := by rw [RaxHdr.size, hsdata]; rfl
  -- What the allocations leave.
  obtain ⟨a₂, ha₂⟩ : ∃ a₂, (if w.j ≠ 0 then w.allocs.tail.tail else w.allocs.tail) = a₂ :=
    ⟨_, rfl⟩
  obtain ⟨a₃, ha₃⟩ : ∃ a₃, (if w.h.label.size - w.j - 1 ≠ 0 then a₂.tail else a₂) = a₃ :=
    ⟨_, rfl⟩
  have hused₂ : NoFail w.allocs → NoFail a₂ := by
    intro ha
    rw [← ha₂]
    split_ifs
    · exact ha.tail.tail
    · exact ha.tail
  simp only [splitDiffer, ha₂, ha₃, hlast, Option.map_some]
  by_cases hfail : w.allocs.head = .null ∨ (w.j ≠ 0 ∧ w.allocs.tail.head = .null) ∨
      (w.h.label.size - w.j - 1 ≠ 0 ∧ a₂.head = .null)
  · rw [if_pos hfail]
    refine .inl ⟨rfl, fun ha => ?_⟩
    rcases hfail with hfail | ⟨-, hfail⟩ | ⟨-, hfail⟩
    · exact ha.head hfail
    · exact ha.tail.head hfail
    · exact (hused₂ ha).head hfail
  rw [if_neg hfail]
  push Not at hfail
  have hgranted : Granted w.allocs a₃ := by
    have h₂ : Granted w.allocs a₂ := by
      rw [← ha₂]
      split_ifs with htrim
      · exact (Granted.tail hfail.1).trans (Granted.tail (hfail.2.1 htrim))
      · exact Granted.tail hfail.1
    rw [← ha₃]
    split_ifs with hpost
    · exact h₂.trans (Granted.tail (hfail.2.2 hpost))
    · exact h₂
  by_cases hj0 : w.j = 0
  · -- The split node takes the place of the old one.
    rw [if_pos hj0, if_pos hj0] at hsame
    have hgrow := growing_of_same ht h.nodeAt hsame (nodeAt_nil _) hsplain h.le
      (by rw [h.spelled, hj0, spell_nil]; rfl) hmissing a₃
    rw [List.append_nil, Nat.zero_add] at hgrow
    exact .inr ⟨_, _, _, _, by rw [if_pos hj0], hgrow, hsize, hgranted, next, hchildren, rfl,
      .inl ⟨rfl, rfl⟩⟩
  · -- It goes below the trimmed one.
    rw [if_neg hj0, if_neg hj0] at hsame
    have hspell : spell (node (splitTrimmed w.h.label w.j) [splitNode w.h.label w.j next]) [0]
        = w.h.label.data.take w.j := by
      rw [spell_cons (c := splitNode w.h.label w.j next) [] rfl, spell_nil, List.append_nil,
        label_node, ((trimmed_splitTrimmed _ _).oneChild hj0 hj).edge,
        (trimmed_splitTrimmed _ _).data]
    have hgrow := growing_of_same (q := [0]) (h := splitNode w.h.label w.j next) ht h.nodeAt hsame
      rfl hsplain h.le (by rw [h.spelled, hspell]) hmissing a₃
    rw [← Nat.add_assoc] at hgrow
    exact .inr ⟨_, _, _, _, by rw [if_neg hj0], hgrow, hsize, hgranted, next, hchildren, rfl,
      .inr ⟨rfl, hj0, rfl⟩⟩

/-- After ALGO 2 the lower part of the node is the new key. -/
theorem splitAtEnd_spec (ht : NodesOk t.head)
    (h : WalkSpec t.head s ts a w) (hc : w.h.label.iscompr = true) (hi : w.i = s.length)
    (hj0 : w.j ≠ 0) (data : Option V) :
    splitAtEnd t w data = some ⟨t, 0, none, .enomem⟩ ∧ ¬ NoFail w.allocs ∨
    ∃ r next, splitAtEnd t w data = some ⟨r, 1, none, .untouched⟩ ∧ Inserted t s data r ∧
      w.h.children = [next] ∧ r.head = t.head.replace w.ptr (node (trimmedAtEnd w.h.label w.j)
        [setKey (node (stringNode false false (w.h.label.data.drop w.j)) [next]) data]) := by
  obtain ⟨next, hw, hnext, hleaf, hone⟩ := h.compr_eq ht hc
  have hchildren : w.h.children = [next] := by rw [hw]; rfl
  have hj := h.compr hc
  have hlast : w.h.children.getLast? = some next := by rw [hw]; rfl
  rw [splitAtEnd]
  by_cases hfail : w.allocs.head = .null ∨ w.allocs.tail.head = .null
  · rw [if_pos hfail]
    refine .inl ⟨rfl, fun ha => ?_⟩
    rcases hfail with hfail | hfail
    · exact ha.head hfail
    · exact ha.tail.head hfail
  rw [if_neg hfail, hlast]
  -- Cut the string first, then make the lower part a key.
  set lower : RaxNode V := node (stringNode false false (w.h.label.data.drop w.j)) [next]
    with hlower
  have hsame : Same w.h (node (trimmedAtEnd w.h.label w.j) [lower]) 1 := by
    rw [hw]
    exact same_splitAtEnd hone hnext hleaf hj0 hj
  have hnode := nodeAt_replace_append (node (trimmedAtEnd w.h.label w.j) [lower]) [0] h.nodeAt
  have hok := hsame.nodesOk_replace ht h.nodeAt
  have hins := (inserted_setKey (t := { t with
    head := t.head.replace w.ptr (node (trimmedAtEnd w.h.label w.j) [lower])
    numnodes := t.numnodes + 1 }) hnode hok.shapes (hok.hole hnode) (hok.nodeAt hnode) rfl
    data).of_same (sameMap_replace ht.shapes h.nodeAt hsame.lookup hsame.nodeCount hsame.keyCount)
  have hspell : spell (t.head.replace w.ptr (node (trimmedAtEnd w.h.label w.j) [lower]))
      (w.ptr ++ [0]) = s := by
    rw [spell_replace_append _ _ h.nodeAt, spell_cons (c := lower) [] rfl, spell_nil,
      List.append_nil, label_node, ((trimmed_trimmedAtEnd _ _).oneChild hj0 hj).edge,
      (trimmed_trimmedAtEnd _ _).data, ← h.spelled, hi, List.take_length]
  have hset : setKey lower data
      = node (raxSetData (stringNode true false (w.h.label.data.drop w.j)) data) [next] := by
    cases data <;> rfl
  rw [hspell, replace_append [0] _ (nodeAt_replace _ h.nodeAt), replace_replace, hset] at hins
  exact .inr ⟨_, next, rfl, hins, hchildren, by rw [hset]⟩

/-- The key is already there: its value changes if the call overwrites. -/
structure Stored (t : RaxTree V) (s : Key) (data : Option V) (overwrite : Bool)
    (r : RaxTree V) : Prop where
  nodes : NodesOk r.head
  updates : Updates t.head r.head s (if overwrite then some data else lookup t.head s)
  numele : r.numele = t.numele
  keys : keyCount r.head = keyCount t.head
  numnodes : r.numnodes = t.numnodes
  nodeCount : nodeCount r.head = nodeCount t.head

theorem Stored.raxOk {overwrite : Bool} {data : Option V} {r : RaxTree V}
    (h : Stored t s data overwrite r) (ht : RaxOk t) : RaxOk r := by
  refine ⟨h.nodes, ?_, ?_⟩
  · rw [h.numele, h.keys, ht.numele]
  · rw [h.numnodes, h.nodeCount, ht.numnodes]

/-- Setting the value of a node that is a key. -/
theorem stored_setKey (ht : NodesOk t.head)
    (hn : t.head.nodeAt p = some n) (hkey : n.label.iskey = true) (data : Option V)
    (overwrite : Bool) :
    Stored t (spell t.head p) data overwrite
      (if overwrite then { t with head := t.head.replace p (setKey n data) } else t) := by
  cases overwrite with
  | false =>
    refine ⟨ht, fun k => ?_, rfl, rfl, rfl, rfl⟩
    by_cases hk : k = spell t.head p
    · rw [if_pos hk, hk]
      rfl
    · rw [if_neg hk]
      rfl
  | true =>
    have h1 := keyCount_replace (setKey n data) hn
    have h2 := keyCount_setKey n data
    have h3 := nodeCount_replace (setKey n data) hn
    have h4 := nodeCount_setKey n data
    have h5 := (updates_setKey n data).replace ht.shapes hn
    rw [hkey, if_pos rfl] at h2
    rw [List.append_nil] at h5
    refine ⟨ht.replace hn (nodesOk_setKey (ht.nodeAt hn) data) fun _ => leafOk_setKey n data,
      h5, rfl, ?_, rfl, ?_⟩
    · simp only [if_true]
      omega
    · simp only [if_true]
      omega

/-- The state in which `raxGenericInsert` takes the exit `oom`, if it does. -/
def oomState (t : RaxTree V) (s : Key) (data : Option V) (a : Allocs) :
    Option (Insertion V) := do
  let w ← raxLowWalk t.head s none a
  if w.i = s.length then none
  else if w.h.label.iscompr then
    match ← splitDiffer t w with
    | none => none
    | some (t, ptr, a) => restOom s data ⟨t, ptr, w.i, a⟩
  else restOom s data ⟨t, w.ptr, w.i, w.allocs⟩

/-- What a call of `raxGenericInsert` can do: the state at the exit `oom`, if it
is taken, and the result. -/
inductive InsertCases (t : RaxTree V) (s : Key) (data : Option V) (overwrite : Bool)
    (a : Allocs) : Option (Insertion V) → Option (InsertResult V) → Prop
  | present {d : Option V} {r : RaxTree V} :
    lookup t.head s = some d → Stored t s data overwrite r →
    InsertCases t s data overwrite a none (some ⟨r, 0, some d, .zero⟩)
  | inserted {r : RaxTree V} :
    lookup t.head s = none → Inserted t s data r →
    InsertCases t s data overwrite a none (some ⟨r, 1, none, .untouched⟩)
  | unchanged : ¬ NoFail a → InsertCases t s data overwrite a none (some ⟨t, 0, none, .enomem⟩)
  | oom {st : Insertion V} {h : RaxNode V} :
    lookup t.head s = none → Growing t s st h → Failed a st.allocs →
    (h = raxNewNode [] [] ∨ h.label.size ≠ 0 ∨
      ∃ w, raxLowWalk t.head s none a = some w ∧ w.i < s.length ∧ st.rax = t ∧
        w.ptr = st.ptr ∧ (growAllocs a).1 = false) →
    InsertCases t s data overwrite a (some st) (insertOom s st)

theorem insertHere_cases (ht : NodesOk t.head) (h : WalkSpec t.head s none a w)
    (hi : w.i = s.length) (hj : w.j = 0) (data : Option V) (overwrite : Bool) :
    InsertCases t s data overwrite a none (some (insertHere t w data overwrite)) := by
  have hlookup := h.lookup_of_at ht.shapes hi hj
  have hspell := h.spelled
  rw [hi, hj, List.take_length, List.take_zero, List.append_nil] at hspell
  obtain ⟨room, hroom⟩ : ∃ room,
      (if !w.h.label.iskey || (w.h.label.isnull && overwrite) then
        (raxReallocForData data w.allocs).1 else true) = room := ⟨_, rfl⟩
  simp only [insertHere, hroom]
  cases room with
  | false =>
    refine .unchanged fun ha => ?_
    rw [← h.allocs_eq] at ha
    split_ifs at hroom
    rcases raxReallocForData_cases data w.allocs with ⟨h1, -⟩ | ⟨-, h2⟩
    · rw [hroom] at h1
      cases h1
    · exact ha.not_failed h2
  | true =>
    cases hkey : w.h.label.iskey with
    | true =>
      rw [hkey, if_pos rfl] at hlookup
      have hstored := stored_setKey ht h.nodeAt hkey data overwrite
      rw [← hspell] at hstored
      exact .present hlookup hstored
    | false =>
      rw [hkey, if_neg (by simp)] at hlookup
      have hins := inserted_setKey h.nodeAt ht.shapes (ht.hole h.nodeAt) (ht.nodeAt h.nodeAt)
        hkey data
      rw [← hspell] at hins
      exact .inserted hlookup hins

/-- The rest of an insertion, below a node that has an edge already or the one at which
the walk stopped. -/
theorem insertRest_cases {st : Insertion V} {h : RaxNode V} (hlookup : lookup t.head s = none)
    (hst : Growing t s st h) (hlt : st.i < s.length) (hgranted : Granted a st.allocs)
    (hstart : h.label.size ≠ 0 ∨ ∃ w, raxLowWalk t.head s none a = some w ∧ w.i < s.length ∧
      st.rax = t ∧ w.ptr = st.ptr ∧ st.allocs = a)
    (data : Option V) (overwrite : Bool) :
    InsertCases t s data overwrite a (restOom s data st) (insertRest s data st) := by
  have htrivial : LoopInvariant t s fun _ _ => True :=
    ⟨fun _ _ _ _ _ _ _ => trivial, fun _ _ _ _ => trivial⟩
  rcases insertRest_spec htrivial hst trivial hlt data with
    ⟨st', h', hr, hst', -, hi, hh, hexit⟩ | ⟨st', h', hr, hst', -, hgrew, hfail, hexit⟩
  · rw [hr, hexit]
    exact .inserted hlookup (hst'.finish hi (by rw [hh]; rfl) data)
  · rw [hr, hexit]
    refine .oom hlookup hst' (hgranted.failed hfail) ?_
    rcases hgrew with ⟨hrax, hptr, -, hh, hfirst⟩ | hh
    · rcases hstart with hsize | ⟨w, hw, hwlt, hrax', hptr', ha⟩
      · exact .inr (.inl (by rw [hh]; exact hsize))
      · refine .inr (.inr ⟨w, hw, hwlt, hrax.trans hrax', hptr'.trans hptr.symm, ?_⟩)
        rw [← ha]
        exact hfirst hlt
    · exact .inl hh

/-- **Insertion.**  On a well-formed tree `raxGenericInsert` is one of the cases
of `InsertCases`, whatever the allocator does. -/
theorem raxGenericInsert_cases (ht : NodesOk t.head) (s : Key) (data : Option V)
    (overwrite : Bool) (a : Allocs) :
    InsertCases t s data overwrite a (oomState t s data a)
      (raxGenericInsert t s data overwrite a) := by
  obtain ⟨w, hw, h⟩ := raxLowWalk_spec ht.shapes s none a
  rw [oomState, raxGenericInsert, hw]
  simp only [Option.bind_eq_bind, Option.bind_some]
  by_cases hhere : w.i = s.length ∧ (w.h.label.iscompr = false ∨ w.j = 0)
  · rw [if_pos hhere]
    obtain ⟨hi, hj⟩ := hhere
    rw [if_pos hi]
    refine insertHere_cases ht h hi ?_ data overwrite
    rcases hj with hc | hj
    · exact h.plain hc
    · exact hj
  rw [if_neg hhere]
  by_cases hend : w.i = s.length
  · -- ALGO 2
    have hc : w.h.label.iscompr = true := by
      by_contra hc
      exact hhere ⟨hend, .inl (by simpa using hc)⟩
    have hj : w.j ≠ 0 := fun hj => hhere ⟨hend, .inr hj⟩
    rw [if_pos hend, if_neg (by simp [hend]), if_pos hc]
    rcases splitAtEnd_spec ht h hc hend hj data with ⟨heq, ha⟩ | ⟨r, -, heq, hr, -, -⟩
    · rw [heq]
      rw [h.allocs_eq] at ha
      exact .unchanged ha
    · rw [heq]
      exact .inserted (h.lookup_of_inside ht.shapes hend hj) hr
  have hlt : w.i < s.length := lt_of_le_of_ne h.le hend
  have hlookup := h.lookup_of_lt ht.shapes hlt
  cases hc : w.h.label.iscompr with
  | true =>
    -- ALGO 1
    rw [if_neg hend, if_pos rfl, if_pos ⟨rfl, hend⟩]
    rcases splitDiffer_spec ht h hc with
      ⟨heq, ha⟩ | ⟨t', ptr, a', h', heq, hgrow, hsize, hgranted, -⟩
    · rw [heq]
      rw [h.allocs_eq] at ha
      exact .unchanged ha
    · rw [heq]
      rw [h.allocs_eq] at hgranted
      exact insertRest_cases hlookup hgrow hlt hgranted (.inl (by simp [hsize])) data overwrite
  | false =>
    rw [if_neg hend, if_neg (by simp), if_neg (by simp), if_neg (by simp)]
    refine insertRest_cases hlookup (h.growing ht hc) hlt ?_
      (.inr ⟨w, hw, hlt, rfl, rfl, h.allocs_eq⟩) data overwrite
    rw [h.allocs_eq]
    exact Granted.refl a

end Cases

end Rax
