/-
The two scans of the recompression (`raxRemove` of rax.c) on chains of any
length.

The first scan adds up the sizes of the nodes of the chain and stops before the
sum passes `RAX_NODE_MAX_SIZE`; the second one copies and frees down to the end
of the chain.  Keys may be longer than a node can hold, so a chain may be too.

* `scanChain_sizes`, `mergeChain_sizes` — the two scans in terms of the list of
  sizes: a beginning of it, and all of it;
* `ChainFits` — when they agree: the whole chain fits into one node, or its
  first two nodes do not, and then the first scan stops at once;
* `scans_agree_iff` — otherwise a key is lost or memory is overrun;
* `CallSafe`, `raxOk_of_run` — the tree is well formed all the same, after every
  run in which no allocation fails or only such that the call survives.
-/
import DecomposeRedis.RaxKeys
import DecomposeRedis.RaxOom
import Mathlib.Algebra.Order.BigOperators.Group.List
import Mathlib.Data.Finset.Max

open RoseTree

namespace Rax

variable {V : Type}

/-! ### The sizes of a chain -/

mutual
/-- The sizes of the nodes of the chain that starts at a node. -/
def chainSizes : RaxNode V → List ℕ
  | node l cs => l.size :: sizesBelow cs
/-- The sizes of the nodes of the chain below. -/
def sizesBelow : List (RaxNode V) → List ℕ
  | [c] => if endsChain c.label then [] else chainSizes c
  | _ => []
end

theorem chainSizes_last {l : RaxHdr V} {c : RaxNode V} (h : endsChain c.label = true) :
    chainSizes (node l [c]) = [l.size] := by
  rw [chainSizes, sizesBelow, if_pos h]

theorem chainSizes_link {l : RaxHdr V} {c : RaxNode V} (h : endsChain c.label = false) :
    chainSizes (node l [c]) = l.size :: chainSizes c := by
  rw [chainSizes, sizesBelow, if_neg (by simp [h])]

theorem chainSizes_eq_cons (n : RaxNode V) : ∃ sizes, chainSizes n = n.label.size :: sizes := by
  obtain ⟨l, cs⟩ := n
  exact ⟨sizesBelow cs, by rw [chainSizes, label_node]⟩

/-- The second scan copies and frees the whole chain. -/
theorem mergeChain_sizes {n : RaxNode V} (hn : NodesOk n) (h : endsChain n.label = false)
    {m : Merged V} (hm : mergeChain n = some m) :
    m.bytes.length = (chainSizes n).sum ∧ m.freed = (chainSizes n).length ∧
      ∀ size ∈ chainSizes n, 0 < size := by
  induction n using RoseTree.induct generalizing m with
  | node l cs ih =>
    obtain ⟨-, hone, c, hc⟩ := link_of_not_endsChain hn.shapes.shape h
    obtain rfl : cs = [c] := (RoseTree.node.inj hc).2
    have hpos : 0 < l.size := List.length_pos_of_ne_nil hone.1
    rw [mergeChain, if_neg hpos.ne', mergeLast] at hm
    cases hend : endsChain c.label with
    | true =>
      rw [hend, if_pos rfl, Option.some.injEq] at hm
      subst hm
      rw [chainSizes_last hend]
      simpa [RaxHdr.size] using hpos
    | false =>
      rw [hend, if_neg (by simp)] at hm
      obtain ⟨m', hm', rfl⟩ := Option.map_eq_some_iff.mp hm
      obtain ⟨hbytes, hfreed, hall⟩ := ih c (by simp) (hn.child (by simp)) hend hm'
      rw [chainSizes_link hend]
      refine ⟨?_, ?_, ?_⟩
      · simp [hbytes, RaxHdr.size]
      · simp [hfreed]
      · rintro size (_ | ⟨_, hsize⟩)
        · exact hpos
        · exact hall size hsize

/-- The first scan takes a beginning of the chain, up to its end or to the node
with which the sum would not fit. -/
theorem scanChain_sizes {n : RaxNode V} (hn : NodesOk n) (h : endsChain n.label = false)
    (comprsize nodes : ℕ) :
    ∃ k, 1 ≤ k ∧ k ≤ (chainSizes n).length ∧
      scanChain n (comprsize + n.label.size) (nodes + 1)
        = some (comprsize + ((chainSizes n).take k).sum, nodes + k) ∧
      (k = (chainSizes n).length ∨
        raxNodeMaxSize < comprsize + ((chainSizes n).take (k + 1)).sum) ∧
      (1 < k → comprsize + ((chainSizes n).take k).sum ≤ raxNodeMaxSize) := by
  induction n using RoseTree.induct generalizing comprsize nodes with
  | node l cs ih =>
    obtain ⟨-, hone, c, hc⟩ := link_of_not_endsChain hn.shapes.shape h
    obtain rfl : cs = [c] := (RoseTree.node.inj hc).2
    have hpos : 0 < l.size := List.length_pos_of_ne_nil hone.1
    rw [label_node, scanChain, if_neg hpos.ne', scanLast]
    cases hend : endsChain c.label with
    | true =>
      rw [chainSizes_last hend]
      exact ⟨1, le_rfl, le_rfl, by simp, .inl rfl, fun h => absurd h (lt_irrefl 1)⟩
    | false =>
      rw [chainSizes_link hend, if_neg (by simp)]
      obtain ⟨sizes, hsizes⟩ := chainSizes_eq_cons c
      by_cases hmax : raxNodeMaxSize < comprsize + l.size + c.label.size
      · -- The scan stops before the child.
        refine ⟨1, le_rfl, by simp, by rw [if_pos hmax]; simp, .inr ?_,
          fun h => absurd h (lt_irrefl 1)⟩
        rw [hsizes]
        simp only [List.take_succ_cons, List.take_zero, List.sum_cons, List.sum_nil]
        omega
      · obtain ⟨k, hk, hle, hscan, hstop, hfit⟩ :=
          ih c (by simp) (hn.child (by simp)) hend (comprsize + l.size) (nodes + 1)
        refine ⟨k + 1, by omega, by simpa using hle, ?_, ?_, fun _ => ?_⟩
        · rw [if_neg hmax, hscan, List.take_succ_cons, List.sum_cons, Nat.add_assoc,
            show nodes + 1 + k = nodes + (k + 1) by omega]
        · rw [List.length_cons, List.take_succ_cons, List.sum_cons]
          rcases hstop with hstop | hstop
          · exact .inl (by omega)
          · exact .inr (by omega)
        · rw [List.take_succ_cons, List.sum_cons]
          rcases Nat.lt_or_ge 1 k with hk1 | hk1
          · have := hfit hk1
            omega
          · obtain rfl : k = 1 := by omega
            rw [hsizes]
            simp only [List.take_succ_cons, List.take_zero, List.sum_cons, List.sum_nil]
            omega

/-! ### When the scans agree -/

/-- The whole chain fits into one node, or the first two nodes do not. -/
def ChainFits (sizes : List ℕ) : Prop :=
  sizes.sum ≤ raxNodeMaxSize ∨ raxNodeMaxSize < (sizes.take 2).sum

instance (sizes : List ℕ) : Decidable (ChainFits sizes) := by
  unfold ChainFits
  infer_instance

theorem sum_take_lt {sizes : List ℕ} (hpos : ∀ size ∈ sizes, 0 < size) {k : ℕ}
    (hk : k < sizes.length) : (sizes.take k).sum < sizes.sum := by
  have hsplit := List.sum_take_add_sum_drop sizes k
  have hdrop : 0 < (sizes.drop k).sum :=
    List.sum_pos _ (fun size h => hpos size (List.mem_of_mem_drop h))
      (List.length_pos_iff.mp (by rw [List.length_drop]; omega))
  omega

theorem sum_take_le (sizes : List ℕ) (k : ℕ) : (sizes.take k).sum ≤ sizes.sum :=
  (List.take_sublist k sizes).sum_le_sum fun _ _ => Nat.zero_le _

/-- The first scan takes one node or all of them exactly if the chain fits. -/
theorem scan_whole_iff {sizes : List ℕ} {k : ℕ} (hk : 1 ≤ k) (hle : k ≤ sizes.length)
    (hstop : k = sizes.length ∨ raxNodeMaxSize < (sizes.take (k + 1)).sum)
    (hfit : 1 < k → (sizes.take k).sum ≤ raxNodeMaxSize) :
    (1 < k → k = sizes.length) ↔ ChainFits sizes := by
  constructor
  · intro h
    rcases Nat.lt_or_ge 1 k with hk1 | hk1
    · have hsum := hfit hk1
      rw [h hk1, List.take_length] at hsum
      exact .inl hsum
    · obtain rfl : k = 1 := by omega
      rcases hstop with hstop | hstop
      · -- A chain of one node.
        rcases Nat.lt_or_ge raxNodeMaxSize sizes.sum with hmax | hmax
        · exact .inr (by rwa [List.take_of_length_le (by omega)])
        · exact .inl hmax
      · exact .inr hstop
  · rintro (h | h) hk1
    · rcases hstop with hstop | hstop
      · exact hstop
      · have := sum_take_le sizes (k + 1)
        omega
    · have hsum := hfit hk1
      have htake := sum_take_le (sizes.take k) 2
      rw [List.take_take, Nat.min_eq_left (show 2 ≤ k from hk1)] at htake
      omega

/-- The first node of the chain through a link. -/
def chainAt (t : RaxNode V) (p : NodePtr) : Option (RaxNode V) :=
  (climb t (ancestors p) p).bind fun x => t.nodeAt x.1

/-- If the first scan finds more than one node, the second one copies as many
bytes and frees as many nodes as the first one counted. -/
def ScansAgree (t : RaxNode V) (p : NodePtr) : Prop :=
  ∀ first comprsize nodes, chainAt t p = some first →
    scanChain first first.label.size 1 = some (comprsize, nodes) → 1 < nodes →
    ∃ m, mergeChain first = some m ∧ m.bytes.length = comprsize ∧ m.freed = nodes

/-- What the recompression does to the chain through a link: with `k` nodes and
`size` bytes counted by the first scan, one node over the end of the chain. -/
structure MergeStep (t : RaxTree V) (p q : NodePtr) (first : RaxNode V) (m : Merged V)
    (k : ℕ) : Prop where
  chain : chainAt t.head p = some first
  nodeAt : t.head.nodeAt q = some first
  scan : scanChain first first.label.size 1 = some (((chainSizes first).take k).sum, k)
  merge : mergeChain first = some m
  spec : MergeSpec first m
  bytes : m.bytes.length = (chainSizes first).sum
  freed : m.freed = (chainSizes first).length
  pos : ∀ size ∈ chainSizes first, 0 < size
  le : k ≤ (chainSizes first).length
  whole : (1 < k → k = (chainSizes first).length) ↔ ChainFits (chainSizes first)
  eq : ∀ a : Allocs, recompress t p (ancestors p) a = if 1 < k ∧ a.head ≠ .null then
      if ((chainSizes first).take k).sum + raxPadding ((chainSizes first).take k).sum + 8
          < m.bytes.length then none
      else some { t with
        head := t.head.replace q (mergedNode (m.bytes.take ((chainSizes first).take k).sum) m.rest)
        numnodes := t.numnodes + 1 - m.freed }
    else some t

theorem exists_mergeStep {t : RaxTree V} (ht : NodesOk t.head) {p : NodePtr} {n : RaxNode V}
    (hn : t.head.nodeAt p = some n) (h : endsChain n.label = false) :
    ∃ q first m k, MergeStep t p q first m k := by
  obtain ⟨q, r, first, -, hclimb, hfirst, hlink, -, -⟩ := climb_spec hn h
  have hok := ht.nodeAt hfirst
  obtain ⟨m, hm, hspec, -⟩ := chain_spec hok hlink
  obtain ⟨hbytes, hfreed, hpos⟩ := mergeChain_sizes hok hlink hm
  obtain ⟨k, hk, hle, hscan, hstop, hfit⟩ := scanChain_sizes hok hlink 0 0
  simp only [Nat.zero_add] at hscan hstop hfit
  exact ⟨q, first, m, k, by rw [chainAt, hclimb, Option.bind_some, hfirst], hfirst, hscan, hm,
    hspec, hbytes, hfreed, hpos, hle, scan_whole_iff hk hle hstop hfit,
    recompress_of_scans hclimb hfirst hscan hm⟩

section Step

variable {t : RaxTree V} {p q : NodePtr} {first : RaxNode V} {m : Merged V} {k : ℕ}

theorem MergeStep.scansAgree_iff (h : MergeStep t p q first m k) :
    ScansAgree t.head p ↔ ChainFits (chainSizes first) := by
  rw [← h.whole]
  constructor
  · intro hagree hk
    obtain ⟨m', hm', -, hfreed⟩ := hagree first _ k h.chain h.scan hk
    rw [h.merge, Option.some.injEq] at hm'
    subst hm'
    exact hfreed.symm.trans h.freed
  · intro hwhole first' comprsize nodes hfirst hscan hnodes
    rw [h.chain, Option.some.injEq] at hfirst
    subst hfirst
    rw [h.scan, Option.some.injEq, Prod.mk.injEq] at hscan
    obtain ⟨rfl, rfl⟩ := hscan
    refine ⟨m, h.merge, ?_, ?_⟩
    · rw [h.bytes, hwhole hnodes, List.take_length]
    · rw [h.freed, hwhole hnodes]

/-- The bytes counted by the first scan are enough for a compressed node. -/
theorem MergeStep.one_lt_sum (h : MergeStep t p q first m k) (hk : 1 < k) :
    1 < ((chainSizes first).take k).sum := by
  have hcard := List.card_nsmul_le_sum ((chainSizes first).take k) 1
    fun size hsize => h.pos size (List.mem_of_mem_take hsize)
  rw [List.length_take, Nat.min_eq_left h.le, smul_eq_mul, Nat.mul_one] at hcard
  omega

/-- Whatever the scans say, the tree stays well formed. -/
theorem MergeStep.raxOk (h : MergeStep t p q first m k) (ht : RaxOk t) {a : Allocs}
    {r : RaxTree V} (hr : recompress t p (ancestors p) a = some r) : RaxOk r := by
  rw [h.eq] at hr
  split_ifs at hr with hcond hover
  · obtain rfl := Option.some.inj hr
    refine h.spec.raxOk_merged ht h.nodeAt ?_
    have hsum := h.one_lt_sum hcond.1
    have hle := sum_take_le (chainSizes first) k
    rw [List.length_take, h.bytes]
    omega
  · obtain rfl := Option.some.inj hr
    exact ht

/-- If the chain fits, the map stays as it is. -/
theorem MergeStep.lookup_of_fits (h : MergeStep t p q first m k) (ht : RaxOk t)
    (hfits : ChainFits (chainSizes first)) (a : Allocs) :
    ∃ r, recompress t p (ancestors p) a = some r ∧
      ∀ key, lookup r.head key = lookup t.head key := by
  by_cases hcond : 1 < k ∧ a.head ≠ .null
  case neg => exact ⟨t, by rw [h.eq, if_neg hcond], fun _ => rfl⟩
  have hall := h.whole.mpr hfits hcond.1
  have hsum : ((chainSizes first).take k).sum = m.bytes.length := by
    rw [hall, List.take_length, h.bytes]
  refine ⟨_, by rw [h.eq, if_pos hcond, hsum, if_neg (by omega), List.take_length], ?_⟩
  exact (h.spec.raxOk_replace ht h.nodeAt (by rw [h.freed, ← hall]; exact hcond.1)).2.2

/-- If it does not, memory is overrun or a key gets lost: the merged node spells
too few bytes, so a longest key below the chain has no place any more. -/
theorem MergeStep.lost_of_not_fits (h : MergeStep t p q first m k) (ht : RaxOk t)
    (hfits : ¬ ChainFits (chainSizes first)) {a : Allocs} (ha : a.head ≠ .null)
    {r : RaxTree V} (hr : recompress t p (ancestors p) a = some r) :
    ∃ key d, lookup t.head key = some d ∧ lookup r.head key = none := by
  rw [← h.whole] at hfits
  push Not at hfits
  obtain ⟨hk, hne⟩ := hfits
  have hcond : 1 < k ∧ a.head ≠ .null := ⟨hk, ha⟩
  set sum := ((chainSizes first).take k).sum with hsum
  have hlt : sum < m.bytes.length := by
    rw [h.bytes]
    exact sum_take_lt h.pos (lt_of_le_of_ne h.le hne)
  have hpos : 1 < sum := h.one_lt_sum hk
  rw [h.eq, if_pos hcond] at hr
  split_ifs at hr
  rw [Option.some.injEq] at hr
  subst hr
  -- A longest key below the chain.
  have hshapes := h.spec.nodes.shapes
  obtain ⟨key, hkey, hlongest⟩ := Finset.exists_max_image (keys m.rest).toFinset List.length
    ((List.toFinset_nonempty_iff _).mpr (keys_ne_nil h.spec.nodes h.spec.leaf))
  rw [List.mem_toFinset, mem_keys hshapes] at hkey
  obtain ⟨d, hd⟩ := hkey
  refine ⟨spell t.head q ++ (m.bytes ++ key), d, ?_, ?_⟩
  · obtain ⟨h1, h2⟩ := oneChild_stringNode (V := V) false false h.spec.bytes
    rw [lookup_spell ht.nodes.shapes h.nodeAt, ← h.spec.lookup,
      lookup_single h1 h2 (by simp [h.spec.bytes])]
    simpa [stringNode] using hd
  · have htake : m.bytes.take sum ≠ [] :=
      List.ne_nil_of_length_pos (by rw [List.length_take]; omega)
    have hpre : m.bytes.take sum <+: m.bytes ++ key :=
      (List.take_prefix _ _).trans (List.prefix_append _ _)
    rw [lookup_replace ht.nodes.shapes h.nodeAt, if_pos (List.prefix_append _ _), List.drop_left,
      mergedNode, lookup_compr rfl htake (by simp [h.spec.bytes]), if_pos hpre]
    by_contra hstored
    obtain ⟨d', hd'⟩ := Option.ne_none_iff_exists'.mp hstored
    have hmem := hlongest _ (List.mem_toFinset.mpr ((mem_keys hshapes).mpr ⟨d', hd'⟩))
    simp only [List.length_drop, List.length_append, List.length_take] at hmem
    omega

end Step

/-! ### The removal -/

/-- `raxRemove` of `s` takes the key out, which gives `r`, and then merges the
chain through the link at `p`. -/
structure Recompression (t : RaxTree V) (s : Key) (a : Allocs) (r : RaxTree V)
    (p : NodePtr) (b : Allocs) : Prop where
  removed : Removed t s r
  link : ∃ n, r.head.nodeAt p = some n ∧ endsChain n.label = false
  memory : b.head ≠ .null
  eq : ∃ d, raxRemove t s a = (recompress r p (ancestors p) b).map fun r' => ⟨r', 1, some d⟩

/-- The removal of a key that is there ends without the recompression or with
it. -/
theorem raxRemove_recompresses {t : RaxTree V} (ht : RaxOk t) {s : Key} {d : Option V}
    (hs : lookup t.head s = some d) {a : Allocs} (ha : NoFail a) :
    (∃ r, raxRemove t s a = some ⟨r, 1, some d⟩ ∧ Removed t s r) ∨
      ∃ r p b, Recompression t s a r p b := by
  rcases raxRemove_stages ht (ha.stackSuffices ht.nodes.shapes (s := s)) with
    ⟨hnone, -⟩ | ⟨d', x, hd', hstages, heq⟩
  · cases hnone.symm.trans hs
  obtain rfl := Option.some.inj (hd'.symm.trans hs)
  cases hstages with
  | done h => exact .inl ⟨_, heq, h⟩
  | merge h hm hlink hused =>
    exact .inr ⟨_, _, _, h, ⟨_, hm, hlink⟩, (hused.noFail ha).head, _, heq⟩

/-- **The two scans.**  They agree, and every other key is still found, exactly
if the chain fits. -/
theorem scans_agree_iff {t r : RaxTree V} {s : Key} {a b : Allocs} {p : NodePtr}
    (h : Recompression t s a r p b) :
    (ScansAgree r.head p ∧ ∃ res, raxRemove t s a = some res ∧
        ∀ key, key ≠ s → lookup res.rax.head key = lookup t.head key) ↔
      ∀ first, chainAt r.head p = some first → ChainFits (chainSizes first) := by
  obtain ⟨n, hn, hlink⟩ := h.link
  obtain ⟨d, heq⟩ := h.eq
  obtain ⟨q, first, m, k, hstep⟩ := exists_mergeStep h.removed.ok.nodes hn hlink
  have hchain : (∀ first', chainAt r.head p = some first' → ChainFits (chainSizes first')) ↔
      ChainFits (chainSizes first) := by
    rw [hstep.chain]
    simp
  rw [hchain, hstep.scansAgree_iff]
  refine ⟨fun h => h.1, fun hfits => ⟨hfits, ?_⟩⟩
  obtain ⟨r', hr', hsame⟩ := hstep.lookup_of_fits h.removed.ok hfits b
  refine ⟨⟨r', 1, some d⟩, by rw [heq, hr']; rfl, fun key hkey => ?_⟩
  rw [hsame, h.removed.updates key, if_neg hkey]

/-! ### A fork and its branches -/

/-- The leaf of a key. -/
def keyLeaf (data : ℕ) : RaxNode ℕ :=
  node { iskey := true, isnull := false, iscompr := false, data := [], value := some data } []

/-- A plain node that is not a key. -/
def plainNode (edges : List UInt8) : RaxHdr ℕ :=
  { iskey := false, isnull := false, iscompr := false, data := edges, value := none }

/-- The branches "aaab", over `x`, and "aaac". -/
def forkTree (x : RaxNode ℕ) : RaxTree ℕ where
  head := node (stringNode false false [97, 97, 97])
    [node (plainNode [98, 99]) [x, keyLeaf 1]]
  numele := keyCount x + 1
  numnodes := nodeCount x + 3

/-- The fork without "aaac", before the recompression. -/
def forkCut (x : RaxNode ℕ) : RaxTree ℕ where
  head := node (stringNode false false [97, 97, 97]) [node (plainNode [98]) [x]]
  numele := keyCount x
  numnodes := nodeCount x + 2

theorem nodesOk_keyLeaf (data : ℕ) : NodesOk (keyLeaf data) :=
  nodesOk_node.mpr ⟨⟨by simp, by simp, by simp⟩, by simp⟩

theorem raxOk_forkTree {x : RaxNode ℕ} (hx : NodesOk x) (hleaf : LeafOk x) :
    RaxOk (forkTree x) := by
  have hplain : NodesOk (node (plainNode [98, 99]) [x, keyLeaf 1]) := by
    refine nodesOk_node.mpr ⟨⟨by simp [plainNode], by simp [plainNode], by simp [plainNode]⟩, ?_⟩
    intro c hc
    rcases List.mem_pair.mp hc with rfl | rfl
    · exact ⟨hleaf, hx⟩
    · exact ⟨fun _ => rfl, nodesOk_keyLeaf 1⟩
  refine ⟨nodesOk_node.mpr ⟨shapeOk_stringNode false false (by simp), ?_⟩, ?_, ?_⟩
  · intro c hc
    obtain rfl := List.mem_singleton.mp hc
    exact ⟨fun h => by simp [plainNode] at h, hplain⟩
  · simp [forkTree, keyLeaf, keyCount_node, stringNode, plainNode]
  · simp [forkTree, keyLeaf, nodeCount_node]
    omega

/-- Removing "aaac" leaves the chain that goes on with "aaab". -/
theorem forkTree_recompression {x : RaxNode ℕ} (hx : NodesOk x) (hleaf : LeafOk x) :
    Recompression (forkTree x) [97, 97, 97, 99] (Stream'.const .same) (forkCut x) [0]
      (Stream'.const .same) := by
  have hrem := removed_unlink (raxOk_forkTree hx hleaf) (q := [0]) (i := 1) (r := [])
    (n := node (plainNode [98, 99]) [x, keyLeaf 1]) (c := keyLeaf 1) rfl rfl rfl
    (thin_nil _) rfl rfl (.inr rfl)
  have hw : raxLowWalk (forkTree x).head [97, 97, 97, 99] (some raxStackInit)
      (Stream'.const .same) = some ⟨[0, 1], keyLeaf 1, 4, 0, some ⟨[[0], []], 32, true, false⟩,
        Stream'.const .same⟩ := rfl
  have hleaf : removeLeaf { forkTree x with
        head := (forkTree x).head.replace [0, 1] (clearKey (keyLeaf 1))
        numele := (forkTree x).numele - 1 } [0, 1] ⟨[[0], []], 32, true, false⟩
        (Stream'.const .same) = recompress (forkCut x) [0] [[]] (Stream'.const .same) := by
    have hloop : cleanupLoop ((forkTree x).head.replace [0, 1] (clearKey (keyLeaf 1)))
        [[0], []] [0, 1] none (forkTree x).numnodes
          = some ⟨[0], some [0, 1], [[]], nodeCount x + 2⟩ := rfl
    have hchild : raxRemoveChild (node (plainNode [98, 99]) [x, clearKey (keyLeaf 1)]) [0] [0, 1]
        (Stream'.const .same) = some (node (plainNode [98]) [x], false, Stream'.const .same) := rfl
    have hat : ((forkTree x).head.replace [0, 1] (clearKey (keyLeaf 1))).nodeAt [0]
        = some (node (plainNode [98, 99]) [x, clearKey (keyLeaf 1)]) := rfl
    rfl
  refine ⟨hrem, ⟨_, rfl, rfl⟩, by decide, some 1, ?_⟩
  rw [raxRemove_eq hw rfl rfl]
  exact congrArg _ hleaf

/-- "aaab" and "aaac". -/
theorem scans_agree_iff_fork :
    (ScansAgree (forkCut (keyLeaf 2)).head [0] ∧
      ∃ res, raxRemove (forkTree (keyLeaf 2)) [97, 97, 97, 99] (Stream'.const .same) = some res ∧
        ∀ key, key ≠ [97, 97, 97, 99] →
          lookup res.rax.head key = lookup (forkTree (keyLeaf 2)).head key) := by
  refine (scans_agree_iff (forkTree_recompression (nodesOk_keyLeaf 2) fun _ => rfl)).mpr ?_
  intro first hfirst
  obtain rfl : _ = first := Option.some.inj hfirst
  exact .inl (by decide)

/-- A branch of `n` bytes in one node and five in another. -/
def longBranch (n : ℕ) : RaxNode ℕ :=
  node (stringNode false false (List.replicate n 97))
    [node (stringNode false false (List.replicate 5 97)) [keyLeaf 2]]

theorem nodesOk_longBranch {n : ℕ} (hn : 0 < n) : NodesOk (longBranch n) := by
  have hne : List.replicate n (97 : UInt8) ≠ [] :=
    List.ne_nil_of_length_pos (by rwa [List.length_replicate])
  refine nodesOk_node.mpr ⟨shapeOk_stringNode false false hne, fun c hc => ?_⟩
  obtain rfl := List.mem_singleton.mp hc
  refine ⟨fun h => by simp [stringNode] at h,
    nodesOk_node.mpr ⟨shapeOk_stringNode false false (by simp), fun d hd => ?_⟩⟩
  obtain rfl := List.mem_singleton.mp hd
  exact ⟨fun _ => rfl, nodesOk_keyLeaf 2⟩

theorem leafOk_longBranch {n : ℕ} (hn : 0 < n) : LeafOk (longBranch n) := by
  intro h0
  have hlen := congrArg List.length h0
  simp [longBranch, stringNode] at hlen
  omega

theorem chainAt_forkCut (x : RaxNode ℕ) : chainAt (forkCut x).head [0] = some (forkCut x).head :=
  rfl

theorem chainSizes_longBranch {n : ℕ} (hn : 1 < n) :
    chainSizes (forkCut (longBranch n)).head = [3, 1, n, 5] := by
  simp [forkCut, longBranch, chainSizes, sizesBelow, endsChain, stringNode, plainNode, keyLeaf,
    RaxHdr.size, hn]

/-- The first scan of the fork with a branch of `n` and five bytes. -/
theorem scanChain_longBranch {n : ℕ} (hn : 1 < n) (hfit : 4 + n ≤ raxNodeMaxSize)
    (hover : raxNodeMaxSize < 4 + n + 5) :
    scanChain (forkCut (longBranch n)).head 3 1 = some (4 + n, 3) := by
  have h1 : ¬ raxNodeMaxSize < 4 := by decide
  have h2 : ¬ raxNodeMaxSize < 4 + n := by omega
  have h3 : n ≠ 0 := by omega
  simp [forkCut, longBranch, scanChain, scanLast, endsChain, stringNode, plainNode, keyLeaf,
    RaxHdr.size, hn, h1, h2, h3, hover]

/-- With a key of `RAX_NODE_MAX_SIZE + 5` bytes, the first scan stops after
`RAX_NODE_MAX_SIZE` bytes in three nodes, the second one copies five bytes more
and frees four nodes, and the key is no longer found. -/
theorem long_key_lost :
    (∃ first m, chainAt (forkCut (longBranch 536870907)).head [0] = some first ∧
      scanChain first first.label.size 1 = some (raxNodeMaxSize, 3) ∧
      mergeChain first = some m ∧ m.bytes.length = raxNodeMaxSize + 5 ∧ m.freed = 4) ∧
    ∃ res key, raxRemove (forkTree (longBranch 536870907)) [97, 97, 97, 99]
        (Stream'.const .same) = some res ∧
      key ≠ [97, 97, 97, 99] ∧ lookup (forkTree (longBranch 536870907)).head key ≠ none ∧
      lookup res.rax.head key = none := by
  -- The length stays a variable, so that nothing runs over the long string.
  generalize hn : 536870907 = n
  have hmax : raxNodeMaxSize = 4 + n := by rw [← hn]; rfl
  have hone : 1 < n := by omega
  have hrec := forkTree_recompression (nodesOk_longBranch (n := n) (by omega))
    (leafOk_longBranch (by omega))
  obtain ⟨l, hl, hlink⟩ := hrec.link
  obtain ⟨d, heq⟩ := hrec.eq
  obtain ⟨q, first, m, k, hstep⟩ := exists_mergeStep hrec.removed.ok.nodes hl hlink
  obtain rfl := Option.some.inj ((chainAt_forkCut _).symm.trans hstep.chain)
  have hscan := scanChain_longBranch hone hmax.ge (by omega)
  have hbytes := hstep.bytes
  have hfreed := hstep.freed
  rw [chainSizes_longBranch hone] at hbytes hfreed
  obtain ⟨hsum, rfl⟩ := Prod.mk.inj (Option.some.inj (hscan.symm.trans hstep.scan))
  have hlen : m.bytes.length = raxNodeMaxSize + 5 := by
    rw [hbytes, hmax]
    simp only [List.sum_cons, List.sum_nil]
    omega
  refine ⟨⟨_, m, chainAt_forkCut _, by rw [hmax]; exact hscan, hstep.merge, hlen, hfreed⟩, ?_⟩
  have hcond : 1 < 3 ∧ (Stream'.const AllocResult.same).head ≠ .null := by decide
  obtain ⟨r, hr⟩ : ∃ r, recompress (forkCut (longBranch n)) [0] (ancestors [0])
      (Stream'.const .same) = some r := by
    rw [hstep.eq, if_pos hcond, ← hsum, hlen, if_neg (by omega)]
    exact ⟨_, rfl⟩
  have hfits : ¬ ChainFits (chainSizes (forkCut (longBranch n)).head) := by
    rw [chainSizes_longBranch hone]
    simp only [ChainFits, List.sum_cons, List.sum_nil, List.take_succ_cons, List.take_zero]
    omega
  obtain ⟨key, d', hkey, hlost⟩ := hstep.lost_of_not_fits hrec.removed.ok hfits hcond.2 hr
  have hup := hrec.removed.updates key
  have hne : key ≠ [97, 97, 97, 99] := by
    rintro rfl
    rw [hkey, if_pos rfl] at hup
    cases hup
  rw [hkey, if_neg hne] at hup
  exact ⟨_, key, by rw [heq, hr]; rfl, hne, by rw [← hup]; simp, hlost⟩

/-! ### Runs -/

/-- The allocations that fail during an insertion are ones it survives. -/
def InsertSurvives (t : RaxTree V) (s : Key) (data : Option V) (a : Allocs) : Prop :=
  KeysFit t.head ∧ s.length ≤ raxNodeMaxSize ∧ InsertSafe t s data a

/-- No allocation fails during the call, or only such that the tree stays well
formed. -/
def CallSafe (t : RaxTree V) (c : Call V × Allocs) : Prop :=
  NoFail c.2 ∨ match c.1 with
    | .raxInsert s data => InsertSurvives t s data c.2
    | .raxTryInsert s data => InsertSurvives t s data c.2
    | .raxRemove s => StackSuffices t.head s c.2
    | .raxFind _ => True

theorem insert_raxOk {t : RaxTree V} {s : Key} {a : Allocs} {data : Option V} {overwrite : Bool}
    {res : InsertResult V} (ht : RaxOk t) (ha : NoFail a ∨ InsertSurvives t s data a)
    (hres : raxGenericInsert t s data overwrite a = some res) : RaxOk res.rax := by
  rcases ha with ha | ⟨hfit, hs, hsafe⟩
  · rcases raxGenericInsert_of_noFail ht ha s data overwrite with
      ⟨d, r, -, hr, heq⟩ | ⟨r, -, hr, heq⟩
    all_goals
      obtain rfl := Option.some.inj (heq.symm.trans hres)
      exact hr.raxOk ht
  · obtain ⟨r, heq, hr, -⟩ := raxGenericInsert_of_safe ht hfit hs hsafe overwrite
    obtain rfl := Option.some.inj (heq.symm.trans hres)
    exact hr

theorem remove_raxOk {t : RaxTree V} {s : Key} {a : Allocs} {res : RemoveResult V} (ht : RaxOk t)
    (hstack : StackSuffices t.head s a) (hres : raxRemove t s a = some res) : RaxOk res.rax := by
  rcases raxRemove_stages ht hstack with ⟨-, hmiss⟩ | ⟨d, x, -, hstages, hx⟩
  · obtain rfl := Option.some.inj (hmiss.symm.trans hres)
    exact ht
  rw [hx] at hres
  obtain ⟨r, hr, rfl⟩ := Option.map_eq_some_iff.mp hres
  cases hstages with
  | done h =>
    rw [← Option.some.inj hr]
    exact h.ok
  | merge h hm hlink _ =>
    obtain ⟨q, first, m, k, hstep⟩ := exists_mergeStep h.ok.nodes hm hlink
    exact hstep.raxOk h.ok hr

/-- A safe call, if it is defined, keeps the tree well formed, however long its
key is. -/
theorem exec_raxOk {t t' : RaxTree V} {c : Call V × Allocs} {answer : Answer V} (ht : RaxOk t)
    (hc : CallSafe t c) (h : exec t c = some (t', answer)) : RaxOk t' := by
  obtain ⟨c, a⟩ := c
  cases c with
  | raxInsert s data | raxTryInsert s data =>
    obtain ⟨res, hres, ⟨⟩⟩ := Option.map_eq_some_iff.mp h
    exact insert_raxOk ht hc hres
  | raxRemove s =>
    obtain ⟨res, hres, ⟨⟩⟩ := Option.map_eq_some_iff.mp h
    exact remove_raxOk ht (hc.elim (fun ha => ha.stackSuffices ht.nodes.shapes) id) hres
  | raxFind s =>
    obtain ⟨found, -, ⟨⟩⟩ := Option.map_eq_some_iff.mp h
    exact ht

/-- **Well-formed trees.**  Every tree reached from `raxNew` by safe calls is well
formed. -/
theorem raxOk_of_run {calls : List (Call V × Allocs)}
    (hcalls : Runs.Meets exec CallSafe raxNew calls) {t : RaxTree V} {answers : List (Answer V)}
    (hrun : Runs.run exec raxNew calls = some (t, answers)) : RaxOk t :=
  Runs.run_safe (fun _ _ _ _ ht hc h => exec_raxOk ht hc h) refines_raxNew.ok hcalls hrun

/-- The third allocation fails. -/
def thirdFails : Allocs := .cons .same (.cons .same (.cons .null (Stream'.const .same)))

/-- "ab" goes in at the second try, "ac" after it, and "ab" out again. -/
def siblingCalls : List (Call ℕ × Allocs) :=
  [(.raxInsert [97, 98] (some 1), thirdFails),
    (.raxInsert [97, 98] (some 1), Stream'.const .same),
    (.raxTryInsert [97, 99] none, Stream'.const .same),
    (.raxRemove [97, 98], Stream'.const .same)]

/-- After these calls a key is stored that is too long for one node. -/
theorem raxOk_of_run_long : ∃ t answer,
    Runs.run exec raxNew (siblingCalls ++
        [(.raxInsert (List.replicate (raxNodeMaxSize + 1) 98) none, Stream'.const .same)])
      = some (t, [.returned 0 none 0, .returned 1 none 1, .returned 1 none 2,
          .returned 1 (some (some 1)) 1, answer]) ∧ RaxOk t := by
  have hsame : NoFail (Stream'.const AllocResult.same) := noFail_const (by decide)
  have hfirst : CallSafe (raxNew : RaxTree ℕ) (.raxInsert [97, 98] (some 1), thirdFails) :=
    .inr ⟨refines_raxNew.fit, by decide, fun _ _ _ _ _ => rfl,
      fun _ _ hst _ _ => stack_of_short refines_raxNew.ok.nodes (by decide) hst⟩
  have hsafe : ∀ js, (∀ c ∈ js, NoFail c.2) →
      Runs.Meets exec CallSafe raxNew (siblingCalls ++ js) := fun js hjs =>
    ⟨hfirst, fun _ _ _ => ⟨.inl hsame, fun _ _ _ => ⟨.inl hsame, fun _ _ _ => ⟨.inl hsame,
      fun t _ _ => Runs.meets_of_invariant (I := fun _ => True) (fun _ _ _ _ _ _ _ => trivial)
        trivial fun _ _ c hc => .inl (hjs c hc)⟩⟩⟩⟩
  have hanswers : (Runs.run exec raxNew siblingCalls).map Prod.snd = some [.returned 0 none 0,
      .returned 1 none 1, .returned 1 none 2, .returned 1 (some (some 1)) 1] := by decide +kernel
  obtain ⟨⟨t, answers⟩, hrun, rfl⟩ := Option.map_eq_some_iff.mp hanswers
  have hok : RaxOk t := raxOk_of_run (hsafe [] (by simp)) (by rw [List.append_nil, hrun])
  -- What follows holds of any key, and the long one is not computed.
  generalize (List.replicate (raxNodeMaxSize + 1) 98 : Key) = s
  obtain ⟨r, hr⟩ : ∃ r, raxInsert t s none (Stream'.const .same) = some r := by
    rcases raxGenericInsert_of_noFail hok hsame s none true with ⟨d, r, -, -, h⟩ | ⟨r, -, -, h⟩
    · exact ⟨_, h⟩
    · exact ⟨_, h⟩
  have hlast : Runs.run exec t [(.raxInsert s none, Stream'.const .same)]
      = some (r.rax, [.returned r.ret r.old (raxSize r.rax)]) := by
    simp [Runs.run, exec, hr]
  have hall := (Runs.run_append _ hrun).trans (congrArg _ hlast)
  exact ⟨_, _, hall, raxOk_of_run (hsafe _ (by simpa using hsame)) hall⟩

end Rax
