/-
Which calls keep the radix tree compact.

An insertion always does (`raxGenericInsert_compact`).  A removal recompresses
too little in some cases: a compressed node that loses its key is not merged
with its parent, nor is anything merged with a key above it.  `LeavesCompact` is
the condition under which a removal leaves no link next to a node with a single
child (`raxRemove_compact`).  Over runs whose removals meet it the tree only
depends on the map it stands for.
-/
import DecomposeRedis.RaxCanonical
import DecomposeRedis.RaxRefine

open RoseTree

namespace Rax

variable {V : Type} {p : NodePtr} {l : RaxHdr V}

/-! ### Replacing a node -/

/-- The parent of the node at a position. -/
def parentAt (t : RaxNode V) (p : NodePtr) : Option (RaxNode V) :=
  if p = [] then none else t.nodeAt p.dropLast

theorem parentAt_concat (t : RaxNode V) (p : NodePtr) (i : ℕ) :
    parentAt t (p ++ [i]) = t.nodeAt p := by
  rw [parentAt, if_neg (by simp), List.dropLast_concat]

/-- Where a chain may not go on: the parent has a single child. -/
def BelowSingle (t : RaxNode V) (p : NodePtr) : Prop := ∃ k ∈ parentAt t p, Single k.label

theorem belowSingle_concat {t n : RaxNode V} (hn : t.nodeAt p = some n) {i : ℕ} :
    BelowSingle t (p ++ [i]) ↔ Single n.label := by
  rw [BelowSingle, parentAt_concat, hn]
  simp

/-- Above the changed node, nothing changes. -/
theorem belowSingle_replace {t n : RaxNode V} (hn : t.nodeAt p = some n)
    (m : RaxNode V) : BelowSingle (t.replace p m) p ↔ BelowSingle t p := by
  rcases List.eq_nil_or_concat' p with rfl | ⟨q, i, rfl⟩
  · simp [BelowSingle, parentAt]
  · obtain ⟨k, hk, hc⟩ := exists_nodeAt_of_append hn
    rw [belowSingle_concat hk, replace_append [i] m hk, belowSingle_concat (nodeAt_replace _ hk),
      label_replace_cons]

/-- A node below one with a single child ends the chain. -/
theorem Compact.endsChain_of_belowSingle {t n : RaxNode V} (h : Compact t)
    (hn : t.nodeAt p = some n) (hp : BelowSingle t p) : endsChain n.label = true := by
  rcases List.eq_nil_or_concat' p with rfl | ⟨q, i, rfl⟩
  · obtain ⟨k, hk, -⟩ := hp
    simp [parentAt] at hk
  · obtain ⟨k, hk, hc⟩ := exists_nodeAt_of_append hn
    obtain ⟨c, hmem, hcn⟩ := nodeAt_cons_eq_some.mp hc
    obtain rfl : c = n := by simpa using hcn
    exact h q k hk ((belowSingle_concat hk).mp hp) c.label
      (List.mem_map_of_mem (List.mem_of_getElem? hmem))

/-- The tree would be compact with any compact node at the position that does
not continue a chain. -/
def CompactHole (t : RaxNode V) (p : NodePtr) : Prop :=
  ∀ m, Compact m → (BelowSingle t p → endsChain m.label = true) → Compact (t.replace p m)

theorem Compact.hole {t n : RaxNode V} (h : Compact t) (hn : t.nodeAt p = some n) :
    CompactHole t p := by
  intro m hm hend
  refine Everywhere.replace h hn hm fun q i k hp hk hsingle c hc => ?_
  subst hp
  rcases List.mem_or_eq_of_mem_set hc with hc | rfl
  · exact h q k hk hsingle c hc
  · exact hend ((belowSingle_concat hk).mpr hsingle)

/-- Replacing a node twice, or a node and one above it. -/
theorem CompactHole.of_replace {t n : RaxNode V} (h : CompactHole t p)
    (hn : t.nodeAt p = some n) (m : RaxNode V) : CompactHole (t.replace p m) p := by
  intro x hx hend
  rw [replace_replace]
  exact h x hx fun hp => hend ((belowSingle_replace hn m).mpr hp)

/-- A hole stays one when the node there gets a child with a hole of its own. -/
theorem CompactHole.below {t n m : RaxNode V} {i : ℕ} (h : CompactHole t p)
    (hn : t.nodeAt p = some n) (hm : ∀ c, Compact c →
      (Single m.label → endsChain c.label = true) → Compact (m.replace [i] c))
    (hend : BelowSingle t p → endsChain m.label = true) :
    CompactHole (t.replace p m) (p ++ [i]) := by
  intro c hc hcend
  rw [replace_append [i] c (nodeAt_replace m hn), replace_replace]
  refine h _ (hm c hc fun hs => hcend ((belowSingle_concat (nodeAt_replace m hn)).mpr hs)) ?_
  rw [label_replace_cons]
  exact hend

/-- A node over one child that is not a link. -/
theorem compact_single {c : RaxNode V} (hc : Compact c) (hend : endsChain c.label = true) :
    Compact (node l [c]) := by
  refine compact_node.mpr ⟨fun _ d hd => ?_, fun d hd => ?_⟩
  all_goals
    obtain rfl : d = c := by simpa using hd
    assumption

theorem compact_childless (l : RaxHdr V) : Compact (node l []) :=
  compact_node.mpr ⟨fun _ => by simp, by simp⟩

/-- A key that is compact below stays so, whatever is stored. -/
theorem compact_congr {l' : RaxHdr V} {cs : List (RaxNode V)} (h : Compact (node l cs))
    (hs : Single l' → Single l) : Compact (node l' cs) := by
  obtain ⟨hhere, hbelow⟩ := compact_node.mp h
  exact compact_node.mpr ⟨fun h' => hhere (hs h'), hbelow⟩

theorem endsChain_of_iskey (h : l.iskey = true) : endsChain l = true := by
  rw [endsChain, h]
  rfl

theorem endsChain_of_not_single (h : ¬ Single l) : endsChain l = true := by
  by_contra hend
  exact h (single_of_not_endsChain (by simpa using hend))

/-- Storing a value in a node. -/
theorem Compact.setKey {t n : RaxNode V} (h : Compact t) (hn : t.nodeAt p = some n)
    (d : Option V) : Compact (t.replace p (setKey n d)) := by
  have hc : Compact n := h.nodeAt hn
  rw [← node_eta n] at hc
  refine h.hole hn _ (compact_congr hc fun hs => ?_) fun _ => ?_
  · simpa [Single, RaxHdr.size] using hs
  · exact endsChain_of_iskey (raxSetData_iskey _ _)

/-! ### Insertion keeps the tree compact -/

/-- The invariant of the insertion loop: the node reached may be filled in, and
it is only about to continue a chain if it is a key. -/
structure CompactLoop (s : Key) (st : Insertion V) (h : RaxNode V) : Prop where
  hole : CompactHole st.rax.head st.ptr
  kids : ∀ c ∈ h.children, Compact c
  chain : s.length ≤ raxNodeMaxSize → st.i < s.length → h.label.size = 0 →
    BelowSingle st.rax.head st.ptr → h.label.iskey = true

/-- A node with at least one edge branches when it gets another one. -/
theorem not_single_raxAddChild {h : RaxNode V} (hplain : h.label.iscompr = false) (c : UInt8)
    (hsize : h.label.size ≠ 0) : ¬ Single (raxAddChild h c).1.label := by
  have hlen : (raxAddChild h c).1.label.size = h.label.size + 1 := by
    have hle : h.label.data.findIdx (fun b => c < b) ≤ h.label.data.length := List.findIdx_le_length
    rw [raxAddChild, RaxHdr.size, label_node, take_append_cons_drop c hle,
      List.length_insertIdx_of_le_length hle, RaxHdr.size]
  rintro (hc | hone)
  · exact absurd (hplain.symm.trans hc) (by simp)
  · omega

theorem mem_children_raxAddChild {h d : RaxNode V} {c : UInt8}
    (hd : d ∈ (raxAddChild h c).1.children) : d ∈ h.children ∨ d = raxNewNode [] [] := by
  simp only [raxAddChild, children_node, List.mem_append, List.mem_cons] at hd
  rcases hd with hd | hd | hd
  · exact .inl (List.mem_of_mem_take hd)
  · exact .inr hd
  · exact .inl (List.mem_of_mem_drop hd)

section Loop

variable {t₀ : RaxTree V} {s : Key}

/-- One more node, at the end of the key or below a node that branches. -/
theorem CompactLoop.grow {st : Insertion V} {h m : RaxNode V} {i k : ℕ} {a : Allocs}
    (hst : st.rax.head.nodeAt st.ptr = some h) (hp : CompactLoop s st h)
    (hkids : ∀ d ∈ m.children, d ∈ h.children ∨ d = raxNewNode [] [])
    (hone : Single m.label → m.children.length = 1 ∧ i = 0)
    (hend : BelowSingle st.rax.head st.ptr → endsChain m.label = true)
    (hlast : s.length ≤ raxNodeMaxSize → st.i + k < s.length → ¬ Single m.label) :
    CompactLoop s
      { rax := { st.rax with
          head := st.rax.head.replace st.ptr m
          numnodes := st.rax.numnodes + 1 }
        ptr := st.ptr ++ [i]
        i := st.i + k
        allocs := a } (raxNewNode [] []) := by
  refine ⟨hp.hole.below hst (fun c hc hcend => ?_) hend, by simp [raxNewNode], ?_⟩
  · rw [replace_singleton]
    refine compact_node.mpr ⟨fun hs d hd => ?_, fun d hd => ?_⟩
    · -- The only child is the new one.
      obtain ⟨hlen, rfl⟩ := hone hs
      obtain ⟨x, hx⟩ := List.length_eq_one_iff.mp hlen
      rw [hx] at hd
      obtain rfl : d = c := by simpa using hd
      exact hcend hs
    · rcases List.mem_or_eq_of_mem_set hd with hd | rfl
      · rcases hkids d hd with hd | rfl
        · exact hp.kids d hd
        · exact compact_childless _
      · exact hc
  · intro hfit hlt _ hbelow
    exact absurd ((belowSingle_concat (nodeAt_replace m hst)).mp hbelow) (hlast hfit hlt)

theorem loopInvariant_compact (t₀ : RaxTree V) (s : Key) (hfit : s.length ≤ raxNodeMaxSize) :
    LoopInvariant t₀ s (CompactLoop s) := by
  constructor
  case allocs => exact fun st h a hp => ⟨hp.hole, hp.kids, hp.chain⟩
  intro st h c rest hst hp hs
  have hlen : s.length - st.i = rest.length + 1 := by
    rw [← List.length_drop, hs, List.length_cons]
  -- A leaf that gets a child continues the chain above it only as a key.
  have hkey : h.label.size = 0 → BelowSingle st.rax.head st.ptr → h.label.iskey = true :=
    hp.chain hfit (by omega)
  by_cases hcond : h.label.size = 0 ∧ rest ≠ []
  · -- The whole rest goes into a compressed node.
    rw [insertStep, if_pos hcond]
    refine CompactLoop.grow hst.nodeAt hp (fun d hd => ?_) (fun _ => ⟨rfl, rfl⟩) (fun hb => ?_) ?_
    · exact .inr (by simpa [raxCompressNode] using hd)
    · exact endsChain_of_iskey (hkey hcond.1 hb)
    · intro _ hlt
      omega
  · rw [insertStep, if_neg hcond]
    refine CompactLoop.grow hst.nodeAt hp (fun d => mem_children_raxAddChild) (fun hs' => ?_)
      (fun hb => ?_) fun _ hlt => ?_
    all_goals by_cases hsize : h.label.size = 0
    · -- The first edge of a leaf.
      have hdata : h.label.data = [] := List.length_eq_zero_iff.mp hsize
      have hcs := ((hst.shapes.shapeAt hst.nodeAt).childless hdata).2
      simp [raxAddChild, hdata, List.length_eq_zero_iff.mp hcs]
    · exact absurd hs' (not_single_raxAddChild hst.plain c hsize)
    · exact endsChain_of_iskey (hkey hsize hb)
    · exact endsChain_of_not_single (not_single_raxAddChild hst.plain c hsize)
    · have hrest : rest = [] := by
        by_contra hne
        exact hcond ⟨hsize, hne⟩
      rw [hrest, List.length_nil] at hlen
      omega
    · exact not_single_raxAddChild hst.plain c hsize

/-- The rest of an insertion without failures. -/
theorem CompactLoop.insertRest {st : Insertion V} {h : RaxNode V} (hst : Growing t₀ s st h)
    (hp : CompactLoop s st h) (hlt : st.i < s.length) (hfit : s.length ≤ raxNodeMaxSize)
    (ha : NoFail st.allocs) {data : Option V} {r : InsertResult V}
    (hr : Rax.insertRest s data st = some r) : Compact r.rax.head := by
  rcases insertRest_spec (loopInvariant_compact t₀ s hfit) hst hp hlt data with
    ⟨st', h', heq, -, hp', -, rfl, -⟩ | ⟨st', h', -, -, -, -, hfail, -⟩
  · rw [heq, Option.some.injEq] at hr
    rw [← hr]
    exact hp'.hole _ (compact_childless _) fun _ => endsChain_of_iskey (raxSetData_iskey _ _)
  · exact absurd hfail ha.not_failed

end Loop

section Insert

variable {t : RaxTree V} {s : Key} {a : Allocs} {w : Walk V}

/-- A trimmed node continues the chain above it only as a key, like the node it
is made from. -/
theorem Trimmed.endsChain {j : ℕ} {l' : RaxHdr V} (h : Trimmed w.h.label j l')
    (hcompact : Compact t.head) (hw : t.head.nodeAt w.ptr = some w.h)
    (hc : w.h.label.iscompr = true) (hbelow : BelowSingle t.head w.ptr) :
    Rax.endsChain l' = true := by
  have hend := hcompact.endsChain_of_belowSingle hw hbelow
  have hkey : w.h.label.iskey = true := by simpa [Rax.endsChain, hc] using hend
  exact endsChain_of_iskey (h.iskey.trans hkey)

/-- The child of a compressed node ends its chain. -/
theorem Compact.child_of_compr {t n next : RaxNode V} {p : NodePtr} (h : Compact t)
    (hn : t.nodeAt p = some n) (hc : n.label.iscompr = true) (hnext : n.children = [next]) :
    Compact next ∧ Rax.endsChain next.label = true := by
  have hold : Compact (node n.label [next]) := by
    rw [← hnext, node_eta]
    exact h.nodeAt hn
  obtain ⟨hhere, hbelow⟩ := compact_node.mp hold
  exact ⟨hbelow next (by simp), hhere (.inl hc) next (by simp)⟩

/-- After ALGO 1 the split node may be filled in. -/
theorem compactLoop_splitDiffer (hcompact : Compact t.head) (hw : t.head.nodeAt w.ptr = some w.h)
    (hc : w.h.label.iscompr = true) {next h' : RaxNode V} (hnext : w.h.children = [next])
    (hh : h' = splitNode w.h.label w.j next) (hsize : h'.label.size = 1) {t' : RaxTree V}
    {ptr : NodePtr} {a' : Allocs}
    (hptr : ptr = w.ptr ∧ t'.head = t.head.replace w.ptr h' ∨
      ptr = w.ptr ++ [0] ∧ w.j ≠ 0 ∧
        t'.head = t.head.replace w.ptr (node (splitTrimmed w.h.label w.j) [h'])) :
    CompactLoop s ⟨t', ptr, w.i, a'⟩ h' := by
  obtain ⟨hcnext, hend⟩ := hcompact.child_of_compr hw hc hnext
  have hhole := hcompact.hole hw
  refine ⟨?_, fun c hcm => ?_, fun _ _ h0 => ?_⟩
  · rcases hptr with ⟨rfl, hhead⟩ | ⟨rfl, -, hhead⟩
    · simp only [hhead]
      exact hhole.of_replace hw h'
    · simp only [hhead]
      refine hhole.below hw (fun c hcc hcend => ?_) fun hb => ?_
      · rw [replace_singleton]
        exact compact_node.mpr ⟨by simpa using hcend, by simpa using hcc⟩
      · exact (trimmed_splitTrimmed w.h.label w.j).endsChain hcompact hw hc hb
  · obtain ⟨ls, hls, -⟩ := splitNode_eq w.h.label w.j next
    rw [hh, hls, children_node, List.mem_singleton] at hcm
    rw [hcm, splitPostfix]
    split_ifs
    · exact compact_single hcnext hend
    · exact hcnext
  · omega

/-- **Insertion keeps the tree compact.** -/
theorem raxGenericInsert_compact (ht : NodesOk t.head) (hcompact : Compact t.head)
    (ha : NoFail a) (hfit : s.length ≤ raxNodeMaxSize) {data : Option V} {overwrite : Bool}
    {r : InsertResult V} (hr : raxGenericInsert t s data overwrite a = some r) :
    Compact r.rax.head := by
  obtain ⟨w, hw, h⟩ := raxLowWalk_spec ht.shapes s none a
  have hallocs : NoFail w.allocs := by rwa [h.allocs_eq]
  rw [raxGenericInsert, hw] at hr
  simp only [Option.bind_eq_bind, Option.bind_some] at hr
  by_cases hhere : w.i = s.length ∧ (w.h.label.iscompr = false ∨ w.j = 0)
  · rw [if_pos hhere, Option.some.injEq] at hr
    rw [← hr, insertHere]
    have hset := hcompact.setKey h.nodeAt data
    split_ifs
    all_goals first | exact hcompact | exact hset
  rw [if_neg hhere] at hr
  by_cases hend : w.i = s.length
  · -- ALGO 2: the key ends inside a compressed node.
    have hc : w.h.label.iscompr = true := by
      by_contra hc
      exact hhere ⟨hend, .inl (by simpa using hc)⟩
    have hj : w.j ≠ 0 := fun hj => hhere ⟨hend, .inr hj⟩
    rw [if_neg (by simp [hend]), if_pos hc] at hr
    rcases splitAtEnd_spec ht h hc hend hj data with ⟨-, hfail⟩ | ⟨r', next, heq, -, hnext, hhead⟩
    · exact absurd hallocs hfail
    rw [heq, Option.some.injEq] at hr
    rw [← hr, hhead]
    obtain ⟨hcnext, hlast⟩ := hcompact.child_of_compr h.nodeAt hc hnext
    refine hcompact.hole h.nodeAt _ (compact_single ?_ ?_) fun hb => ?_
    · exact compact_single hcnext hlast
    · exact endsChain_of_iskey (raxSetData_iskey _ _)
    · exact (trimmed_trimmedAtEnd w.h.label w.j).endsChain hcompact h.nodeAt hc hb
  have hlt : w.i < s.length := lt_of_le_of_ne h.le hend
  cases hc : w.h.label.iscompr with
  | true =>
    -- ALGO 1: the compressed node is split at the byte that differs.
    rw [if_pos ⟨hc, hend⟩] at hr
    rcases splitDiffer_spec ht h hc with
      ⟨-, hfail⟩ | ⟨t', ptr, a', h', heq, hgrow, hsize, hgranted, next, hnext, hh, hptr⟩
    · exact absurd hallocs hfail
    rw [heq] at hr
    exact (compactLoop_splitDiffer hcompact h.nodeAt hc hnext hh hsize hptr).insertRest hgrow hlt
      hfit (hgranted.used.noFail hallocs) hr
  | false =>
    rw [if_neg (by simp [hc]), if_neg (by simp [hc])] at hr
    have hloop : CompactLoop s ⟨t, w.ptr, w.i, w.allocs⟩ w.h := by
      refine ⟨hcompact.hole h.nodeAt, fun c hcm => (hcompact.nodeAt h.nodeAt).child hcm, ?_⟩
      rintro - - hsize ⟨k, hk, -⟩
      -- A leaf below another node is a key.
      rcases List.eq_nil_or_concat' w.ptr with hnil | ⟨q, i, hq⟩
      · simp [parentAt, hnil] at hk
      · have hleaf := h.nodeAt
        rw [hq] at hleaf
        exact ht.leafAt hleaf (List.length_eq_zero_iff.mp hsize)
    exact hloop.insertRest (h.growing ht hc) hlt hfit hallocs hr

end Insert

/-! ### Removal -/

instance (l : RaxHdr V) : Decidable (Single l) :=
  inferInstanceAs (Decidable (l.iscompr = true ∨ l.size = 1))

/-- The walk up from the leaf at `p` stops at the position `q`. -/
def StopsAt (t : RaxNode V) (p q : NodePtr) : Prop :=
  (q = [] ∨ endsAt t q = true) ∧ ∀ q' ∈ ancestors p, q.length < q'.length → endsAt t q' = false

/-- The parent of the position does not have to be left as a key above a link. -/
def NoKeyAbove (t : RaxNode V) (p : NodePtr) : Prop :=
  ∀ k ∈ parentAt t p, Single k.label → k.label.iskey = false

/-- What the removal of the key at `p`, where the node is `n`, needs so that it
leaves no link next to a node with a single child. -/
structure KeepsCompact (t : RaxNode V) (p : NodePtr) (n : RaxNode V) : Prop where
  /-- A compressed node that loses its key is not merged with its parent. -/
  compressed : n.label.iscompr = true → ∀ k ∈ parentAt t p, ¬ Single k.label
  /-- A plain one is, unless the parent is a key. -/
  plain : n.label.iscompr = false → n.label.size = 1 → NoKeyAbove t p
  /-- The same for a node that is left with one of two children; if it is a key
  it is not merged with that child. -/
  leaf : n.label.size = 0 → ∀ q ∈ ancestors p, StopsAt t p q → ∀ m ∈ t.nodeAt q,
    m.label.iscompr = false → m.label.size = 2 →
    (m.label.iskey = false → NoKeyAbove t q) ∧
    (m.label.iskey = true →
      ∀ c ∈ m.children.eraseIdx (p.getD q.length 0), endsChain c.label = true)

/-- The removal of the key keeps the tree compact. -/
def LeavesCompact (t : RaxNode V) (s : Key) (a : Allocs) : Prop :=
  ∀ w ∈ raxLowWalk t s (some raxStackInit) a, w.misses s = false → KeepsCompact t w.ptr w.h

instance (t : RaxNode V) (p q : NodePtr) : Decidable (StopsAt t p q) :=
  inferInstanceAs (Decidable (_ ∧ _))

instance (t : RaxNode V) (p : NodePtr) : Decidable (NoKeyAbove t p) :=
  inferInstanceAs (Decidable (∀ k ∈ parentAt t p, Single k.label → k.label.iskey = false))

instance (t : RaxNode V) (p : NodePtr) (n : RaxNode V) : Decidable (KeepsCompact t p n) :=
  decidable_of_iff
    ((n.label.iscompr = true → ∀ k ∈ parentAt t p, ¬ Single k.label) ∧
      (n.label.iscompr = false → n.label.size = 1 → NoKeyAbove t p) ∧
      (n.label.size = 0 → ∀ q ∈ ancestors p, StopsAt t p q → ∀ m ∈ t.nodeAt q,
        m.label.iscompr = false → m.label.size = 2 →
        (m.label.iskey = false → NoKeyAbove t q) ∧
        (m.label.iskey = true →
          ∀ c ∈ m.children.eraseIdx (p.getD q.length 0), endsChain c.label = true)))
    ⟨fun h => ⟨h.1, h.2.1, h.2.2⟩, fun h => ⟨h.compressed, h.plain, h.leaf⟩⟩

instance (t : RaxNode V) (s : Key) (a : Allocs) : Decidable (LeavesCompact t s a) :=
  inferInstanceAs (Decidable (∀ w ∈ raxLowWalk t s (some raxStackInit) a,
    w.misses s = false → KeepsCompact t w.ptr w.h))

theorem Thin.eq_replicate {n leaf : RaxNode V} {r : NodePtr} (hn : ShapesOk n) (h : Thin n r)
    (hleaf : n.nodeAt r = some leaf) : r = List.replicate r.length 0 := by
  induction r generalizing n with
  | nil => rfl
  | cons i r ih =>
    obtain ⟨rfl, -, -, c, hc, hr, hthin⟩ := h.cons hn hleaf
    have hcok : ShapesOk c := hn.child (by rw [hc]; simp)
    rw [List.length_cons, List.replicate_succ, ← ih hcok hthin hr]

/-- The scan that merges a chain goes beyond every link of it. -/
theorem MergeSpec.lt_freed {first link : RaxNode V} {m : Merged V} {r : NodePtr}
    (hm : MergeSpec first m) (hn : ShapesOk first) (hthin : Thin first r)
    (hlink : first.nodeAt r = some link) (hend : endsChain link.label = false) :
    r.length < m.freed := by
  by_contra hle
  have hr := hthin.eq_replicate hn hlink
  -- Otherwise the node at which the scan stopped would be a link.
  have hrest := hm.ends
  have hpre : List.replicate m.freed 0 <+: r := by
    rw [hr]
    exact ⟨List.replicate (r.length - m.freed) 0, by
      rw [List.replicate_append_replicate, Nat.add_sub_of_le (not_lt.mp hle)]⟩
  by_cases heq : List.replicate m.freed 0 = r
  · have := hm.restAt
    rw [heq, hlink, Option.some.injEq] at this
    rw [← this, hend] at hrest
    cases hrest
  · obtain ⟨x, hx, hxend⟩ := hthin _ hpre heq
    rw [hm.restAt, Option.some.injEq] at hx
    rw [hx, hxend] at hrest
    cases hrest

theorem endsChain_eq_false (hs : Single l) (hkey : l.iskey = false) :
    endsChain l = false := by
  rcases hs with hs | hs <;> simp [endsChain, hkey, hs]

section Merge

variable {t n n' : RaxNode V} {p : NodePtr}

/-- The upper end of the chain through a new link at `p` is not below a node
with a single child. -/
theorem not_belowSingle_of_chain {first : RaxNode V} {q r : NodePtr} (ht : Compact t)
    (hn : t.nodeAt (q ++ r) = some n) (habove : NoKeyAbove t (q ++ r))
    (hfirst : (t.replace (q ++ r) n').nodeAt q = some first) (hlink : endsChain first.label = false)
    (hstop : q = [] ∨ endsAt (t.replace (q ++ r) n') q.dropLast = true) : ¬ BelowSingle t q := by
  rintro ⟨k, hk, hs⟩
  rcases List.eq_nil_or_concat' q with rfl | ⟨q, i, rfl⟩
  · simp [parentAt] at hk
  obtain ⟨first₀, hfirst₀, -⟩ := exists_nodeAt_of_append hn
  rcases r with _ | ⟨j, r⟩
  · -- The parent of `p` is no key, so the climb would have gone on.
    rw [List.append_nil] at hn habove hstop
    have hkey := habove k hk hs
    rw [parentAt_concat] at hk
    have hend := hstop.resolve_left (by simp)
    rw [List.dropLast_concat, endsAt_replace n' hn (List.prefix_append q [i]) (by simp), endsAt,
      Option.mem_def.mp hk, Option.map_some, Option.getD_some, endsChain_eq_false hs hkey] at hend
    cases hend
  · -- The upper end was a link before, below a node with a single child.
    have hbelow : BelowSingle t (q ++ [i]) := ⟨k, hk, hs⟩
    have hend := ht.endsChain_of_belowSingle hfirst₀ hbelow
    rw [replace_append (j :: r) n' hfirst₀, nodeAt_replace _ hfirst₀, Option.some.injEq] at hfirst
    rw [← hfirst, label_replace_cons, hend] at hlink
    cases hlink

/-- Recompressing the chain through a new link. -/
theorem recompress_compact {T : RaxTree V} {a : Allocs} (ht : Compact t)
    (hn : t.nodeAt p = some n) (hT : T.head = t.replace p n') (hok : NodesOk T.head)
    (hfit : KeysFit T.head) (hlink : endsChain n'.label = false)
    (hkids : ∀ c ∈ n'.children, Compact c) (habove : NoKeyAbove t p) (ha : a.head ≠ .null)
    {r : RaxTree V} (hr : recompress T p (ancestors p) a = some r) : Compact r.head := by
  have hn' : T.head.nodeAt p = some n' := by
    rw [hT]
    exact nodeAt_replace n' hn
  obtain ⟨q, down, first, m, rfl, hfirst, hflink, hthin, hstop, hspec, hfreed, heq⟩ :=
    recompress_eq hok hfit hn' hlink a
  have hfirstok : ShapesOk first := hok.shapes.nodeAt hfirst
  have hchild : first.nodeAt down = some n' := by
    rwa [nodeAt_append, hfirst] at hn'
  have hlt := hspec.lt_freed hfirstok hthin hchild hlink
  -- The chain goes on below the new link and ends in a compact node.
  obtain ⟨-, -, d, hd⟩ := link_of_not_endsChain (hok.shapes.shapeAt hn') hlink
  have hrest : d.nodeAt (List.replicate (m.freed - down.length - 1) 0) = some m.rest := by
    have hsplit : List.replicate m.freed 0
        = down ++ 0 :: List.replicate (m.freed - down.length - 1) 0 := by
      conv_rhs => rw [hthin.eq_replicate hfirstok hchild, List.length_replicate]
      rw [← List.replicate_succ, List.replicate_append_replicate]
      congr 1
      omega
    have := hspec.restAt
    rw [hsplit, nodeAt_append, hchild, Option.bind_some, hd, nodeAt_cons] at this
    exact this
  have hcompact : Compact m.rest := (hkids d (by rw [hd]; simp)).nodeAt hrest
  rw [hT] at hfirst hstop
  have hfree := not_belowSingle_of_chain ht hn habove hfirst hflink hstop
  obtain ⟨first₀, hfirst₀, -⟩ := exists_nodeAt_of_append hn
  rw [heq, Option.some.injEq] at hr
  rw [← hr]
  split_ifs with hmerge
  · simp only [hT, replace_append down n' hfirst₀, replace_replace]
    exact ht.hole hfirst₀ _ (compact_single hcompact hspec.ends) fun hb => absurd hb hfree
  · -- Nothing to merge: the link is the whole chain.
    have hone : m.freed = 1 := by
      by_contra hne
      exact hmerge ⟨by omega, ha⟩
    obtain rfl : down = [] := List.length_eq_zero_iff.mp (by omega)
    rw [hone] at hrest
    obtain rfl : d = m.rest := by simpa using hrest
    rw [List.append_nil] at hn hT
    rw [hT, hd]
    exact ht.hole hn _ (compact_single hcompact hspec.ends) fun hb => absurd hb hfree

end Merge

theorem compact_clearKey {n : RaxNode V} (h : Compact n) : Compact (clearKey n) := by
  rw [← node_eta n] at h
  exact compact_congr h fun hs => hs

section Remove

variable {t : RaxTree V} {s : Key} {a : Allocs}

theorem mem_ancestors_append (q : NodePtr) (i : ℕ) (r : NodePtr) :
    q ∈ ancestors (q ++ i :: r) := by
  have hdrop := ancestors_append (q ++ [i]) r
  rw [List.append_assoc, List.singleton_append, ancestors_concat] at hdrop
  refine List.mem_of_mem_drop (i := r.length) ?_
  rw [hdrop]
  exact List.mem_cons_self

theorem stopsAt_of_thin {t m c : RaxNode V} {q r : NodePtr} {i : ℕ} (hm : t.nodeAt q = some m)
    (hc : m.children[i]? = some c) (hthin : Thin c r) (hstop : q = [] ∨ endsAt t q = true) :
    StopsAt t (q ++ i :: r) q := by
  refine ⟨hstop, fun q' hq' hlen => ?_⟩
  obtain ⟨hpre, hne⟩ := mem_ancestors hq'
  obtain ⟨x, rfl⟩ : q <+: q' :=
    List.prefix_of_prefix_length_le (List.prefix_append _ _) hpre hlen.le
  have hx := (List.prefix_append_right_inj q).mp hpre
  rcases x with _ | ⟨j, x⟩
  · simp at hlen
  obtain ⟨rfl, hxr⟩ := List.cons_prefix_cons.mp hx
  obtain ⟨y, hy, hend⟩ := hthin x hxr fun heq => hne (by rw [heq])
  have hat : t.nodeAt (q ++ j :: x) = some y := by
    rw [nodeAt_append, hm]
    exact nodeAt_cons_eq_some.mpr ⟨c, hc, hy⟩
  rw [endsAt, hat, Option.map_some, hend]
  rfl

/-- Removing a leaf. -/
theorem removeLeaf_compact {p : NodePtr} {n : RaxNode V} {ts : RaxStack} {r : RaxTree V}
    (ht : RaxOk t) (hfit : KeysFit t.head) (hcompact : Compact t.head)
    (hn : t.head.nodeAt p = some n) (hdata : n.label.data = []) (hkey : n.label.iskey = true)
    (hkeeps : KeepsCompact t.head p n) (ha : NoFail a) (hts : ts.stack = ancestors p)
    (hoom : ts.oom = false)
    (hr : removeLeaf { t with
      head := t.head.replace p (clearKey n)
      numele := t.numele - 1 } p ts a = some r) : Compact r.head := by
  by_cases hp : p = []
  · -- The head itself: it stays.
    subst hp
    rw [removeLeaf_head, Option.some.injEq] at hr
    rw [← hr]
    simpa using compact_clearKey (hcompact.nodeAt hn)
  have hknown : ParentsKnown t.head p ts.stack a := by
    rw [hts]
    exact parentsKnown_ancestors _ _ _
  obtain ⟨q, i, down, m, c, b, rfl, hm, hc, hleaf, hthin, hstop, hused, heq⟩ :=
    removeLeaf_eq hn hp hknown fun _ => hts
  have hrem := removed_unlink ht hm hc hleaf hthin hdata hkey hstop
  have hmem : q ∈ ancestors (q ++ i :: down) := mem_ancestors_append q i down
  have hcond := hkeeps.leaf (List.length_eq_zero_iff.mpr hdata) q hmem
    (stopsAt_of_thin hm hc hthin hstop) m hm
  have hmcompact : Compact m := hcompact.nodeAt hm
  obtain ⟨hplain, hukey⟩ := unlink_label m i
  rw [heq] at hr
  simp only at hr
  -- The children that stay were there before.
  have hkids : ∀ d ∈ (unlink m i).children, d ∈ m.children := by
    intro d hd
    cases hcompr : m.label.iscompr with
    | true =>
      rw [(unlink_compr hcompr i).1] at hd
      cases hd
    | false =>
      rw [unlink_plain hcompr, children_node] at hd
      exact List.mem_of_mem_eraseIdx hd
  -- A single child is left only of two.
  have htwo : (unlink m i).label.size = 1 → m.label.iscompr = false ∧ m.label.size = 2 := by
    intro hone
    cases hcompr : m.label.iscompr with
    | true =>
      rw [RaxHdr.size, (unlink_compr hcompr i).2.1] at hone
      cases hone
    | false =>
      have hshape := ht.nodes.shapes.shapeAt hm
      have hi := (hshape.lt_iff hcompr).mp (List.getElem?_eq_some_iff.mp hc).choose
      rw [RaxHdr.size, unlink_plain hcompr, label_node, List.length_eraseIdx_of_lt hi] at hone
      exact ⟨rfl, by rw [RaxHdr.size]; omega⟩
  split_ifs at hr with hmerge
  · obtain ⟨hone, hnokey, -⟩ := hmerge
    obtain ⟨hmplain, hsize⟩ := htwo hone
    refine recompress_compact hcompact hm rfl hrem.ok.nodes (hfit.of_updates hrem.updates)
      (endsChain_eq_false (.inr hone) hnokey) (fun d hd => hmcompact.child (hkids d hd)) ?_
      (hused.noFail ha).head hr
    exact (hcond hmplain hsize).1 (hukey.symm.trans hnokey)
  · rw [Option.some.injEq] at hr
    rw [← hr]
    -- Without recompression the node is a key or branches.
    have hbranch : Single (unlink m i).label → (unlink m i).label.size = 1 ∧
        m.label.iskey = true := by
      rintro (hs | hs)
      · rw [hplain] at hs
        cases hs
      · refine ⟨hs, ?_⟩
        by_contra hnokey
        exact hmerge ⟨hs, hukey.trans (by simpa using hnokey), hoom⟩
    refine hcompact.hole hm _ ?_ fun _ => ?_
    · rw [← node_eta (unlink m i)]
      refine compact_node.mpr ⟨fun hs d hd => ?_, fun d hd => hmcompact.child (hkids d hd)⟩
      obtain ⟨hone, hmkey⟩ := hbranch hs
      obtain ⟨hmplain, hsize⟩ := htwo hone
      refine (hcond hmplain hsize).2 hmkey d ?_
      rw [unlink_plain hmplain, children_node] at hd
      simpa using hd
    · by_cases hs : Single (unlink m i).label
      · exact endsChain_of_iskey (hukey.trans (hbranch hs).2)
      · exact endsChain_of_not_single hs

/-- **Removal keeps the tree compact** under its condition. -/
theorem raxRemove_compact (ht : RaxOk t) (hfit : KeysFit t.head) (hcompact : Compact t.head)
    (ha : NoFail a) (hkeeps : LeavesCompact t.head s a) {r : RemoveResult V}
    (hr : raxRemove t s a = some r) : Compact r.rax.head := by
  obtain ⟨w, hw, h⟩ := raxLowWalk_spec ht.nodes.shapes s (some raxStackInit) a
  cases hm : w.misses s with
  | true =>
    have heq : raxRemove t s a = some ⟨t, 0, none⟩ := by simp [raxRemove, hw, hm]
    rw [heq, Option.some.injEq] at hr
    rw [← hr]
    exact hcompact
  | false =>
    obtain ⟨ts, hts, hused, hcomplete, hnofail⟩ := h.stack_eq
    have hoom := hnofail ha
    have hstack := hcomplete hoom
    obtain ⟨hi, hj, hkey, hspell⟩ := h.of_not_misses hm
    have hk := hkeeps w hw hm
    have hshape := ht.nodes.shapes.shapeAt h.nodeAt
    have hold : Compact w.h := hcompact.nodeAt h.nodeAt
    rw [raxRemove_eq hw hts hm] at hr
    obtain ⟨r', hr', rfl⟩ := Option.map_eq_some_iff.mp hr
    show Compact r'.head
    by_cases hsize : w.h.label.size = 0
    · rw [if_pos hsize] at hr'
      exact removeLeaf_compact ht hfit hcompact h.nodeAt (List.length_eq_zero_iff.mp hsize) hkey hk
        (hused.noFail ha) hstack hoom hr'
    have hdata : w.h.label.data ≠ [] := fun h0 => hsize (List.length_eq_zero_iff.mpr h0)
    have hrem := removed_clearKey ht h.nodeAt (fun _ => hdata) hkey
    rw [if_neg hsize] at hr'
    by_cases hone : w.h.label.size = 1 ∧ ts.oom = false
    · have hplain := hshape.plain_of_lt (by omega)
      have hlink : endsChain (clearKey w.h).label = false := endsChain_eq_false (.inr hone.1) rfl
      rw [if_pos hone, hstack] at hr'
      exact recompress_compact hcompact h.nodeAt rfl hrem.ok.nodes (hfit.of_updates hrem.updates)
        hlink (fun d hd => hold.child hd)
        (hk.plain hplain hone.1) (hused.noFail ha).head hr'
    · rw [if_neg hone, Option.some.injEq] at hr'
      rw [← hr']
      refine hcompact.hole h.nodeAt _ (compact_clearKey hold) ?_
      rintro ⟨k, hk', hs⟩
      refine endsChain_of_not_single fun hsingle => ?_
      rcases hsingle with hc | hc
      · exact hk.compressed hc k hk' hs
      · exact hone ⟨hc, hoom⟩

end Remove

/-! ### Runs -/

/-- What a call needs to keep the tree compact. -/
def CompactCall (t : RaxTree V) (c : Call V × Allocs) : Prop :=
  match c.1 with
  | .raxRemove s => LeavesCompact t.head s c.2
  | _ => True

instance (t : RaxTree V) (c : Call V × Allocs) : Decidable (CompactCall t c) :=
  match c with
  | (.raxRemove s, a) => inferInstanceAs (Decidable (LeavesCompact t.head s a))
  | (.raxInsert _ _, _) => isTrue trivial
  | (.raxTryInsert _ _, _) => isTrue trivial
  | (.raxFind _, _) => isTrue trivial

theorem exec_compact {t t' : RaxTree V} {m : RefMap V} {c : Call V × Allocs} {answer : Answer V}
    (h : Refines t m) (hcompact : Compact t.head) (hc : CallOk c) (hkeeps : CompactCall t c)
    (heq : exec t c = some (t', answer)) : Compact t'.head := by
  obtain ⟨c, a⟩ := c
  obtain ⟨ha, hs⟩ := hc
  cases c with
  | raxInsert s data =>
    obtain ⟨r, hr, hpair⟩ := Option.map_eq_some_iff.mp heq
    obtain ⟨rfl, -⟩ := Prod.mk.inj hpair
    exact raxGenericInsert_compact h.ok.nodes hcompact ha hs hr
  | raxTryInsert s data =>
    obtain ⟨r, hr, hpair⟩ := Option.map_eq_some_iff.mp heq
    obtain ⟨rfl, -⟩ := Prod.mk.inj hpair
    exact raxGenericInsert_compact h.ok.nodes hcompact ha hs hr
  | raxRemove s =>
    obtain ⟨r, hr, hpair⟩ := Option.map_eq_some_iff.mp heq
    obtain ⟨rfl, -⟩ := Prod.mk.inj hpair
    exact raxRemove_compact h.ok h.fit hcompact ha hkeeps hr
  | raxFind s =>
    obtain ⟨f, -, hpair⟩ := Option.map_eq_some_iff.mp heq
    obtain ⟨rfl, -⟩ := Prod.mk.inj hpair
    exact hcompact

/-- Every run from `raxNew` whose removals meet their condition ends in a
compact tree. -/
theorem run_compact {calls : List (Call V × Allocs)} (hcalls : ∀ c ∈ calls, CallOk c)
    (hkeeps : Runs.Meets exec CompactCall raxNew calls) :
    ∃ t answers, Runs.run exec raxNew calls = some (t, answers) ∧ RaxOk t ∧ Compact t.head := by
  have hinv : (∃ m, Refines (raxNew : RaxTree V) m) ∧ Compact (raxNew : RaxTree V).head :=
    ⟨⟨∅, refines_raxNew⟩, compact_childless _⟩
  have hstep : ∀ (t : RaxTree V) c, ((∃ m, Refines t m) ∧ Compact t.head) →
      CallOk c ∧ CompactCall t c →
      ∃ t' answer, exec t c = some (t', answer) ∧ (∃ m, Refines t' m) ∧ Compact t'.head := by
    rintro t c ⟨⟨m, hm⟩, hcompact⟩ ⟨hc, hkeeps⟩
    obtain ⟨t', heq, href⟩ := exec_refines hm c hc.1 hc.2
    exact ⟨t', _, heq, ⟨_, href⟩, exec_compact hm hcompact hc hkeeps heq⟩
  obtain ⟨t, answers, hrun, ⟨m, hm⟩, hcompact⟩ :=
    Runs.run_invariant hstep hinv ((Runs.meets_of_forall raxNew hcalls).and hkeeps)
  exact ⟨t, answers, hrun, hm.ok, hcompact⟩

/-- Trees in which `raxFind` finds the same have the same map. -/
theorem lookup_eq_of_raxFind_eq {t t' : RaxTree V} (ht : RaxOk t) (ht' : RaxOk t')
    (h : ∀ s a, raxFind t s a = raxFind t' s a) (k : Key) :
    lookup t.head k = lookup t'.head k := by
  have hk := h k (Stream'.const .same)
  rw [raxFind_eq_lookup ht.nodes.shapes, raxFind_eq_lookup ht'.nodes.shapes, Option.some.injEq]
    at hk
  cases hx : lookup t.head k <;> cases hy : lookup t'.head k <;> simp_all [Found.ofLookup]

/-- **Histories do not matter.**  In every tree reached by runs whose removals
meet their condition, no node with a single child is above a link, so two of
them with the same map are equal, in what can be seen, and have the same number
of nodes. -/
theorem canonical_of_raxNew (calls calls' : List (Call V × Allocs))
    (hcalls : ∀ c ∈ calls, CallOk c) (hcalls' : ∀ c ∈ calls', CallOk c)
    (hkeeps : Runs.Meets exec CompactCall raxNew calls)
    (hkeeps' : Runs.Meets exec CompactCall raxNew calls') :
    ∃ t answers t' answers', Runs.run exec raxNew calls = some (t, answers) ∧
      Runs.run exec raxNew calls' = some (t', answers') ∧
      (∀ p n, t.head.nodeAt p = some n → Single n.label →
        ∀ c ∈ n.children, ¬ (c.label.iskey = false ∧ Single c.label)) ∧
      ((∀ s a, raxFind t s a = raxFind t' s a) →
        t.head.map visible = t'.head.map visible ∧ t.numnodes = t'.numnodes) := by
  obtain ⟨t, answers, hrun, hok, hcompact⟩ := run_compact hcalls hkeeps
  obtain ⟨t', answers', hrun', hok', hcompact'⟩ := run_compact hcalls' hkeeps'
  refine ⟨t, answers, t', answers', hrun, hrun', ?_, fun hfind => ?_⟩
  · rintro p n hn hs c hc ⟨hkey, hsc⟩
    have hend := hcompact p n hn hs c.label (List.mem_map_of_mem hc)
    rw [endsChain_eq_false hsc hkey] at hend
    cases hend
  · have heq : t.head.map visible = t'.head.map visible :=
      visible_eq_of_lookup_eq hok.nodes hok'.nodes hcompact hcompact'
        (lookup_eq_of_raxFind_eq hok hok' hfind)
    refine ⟨heq, ?_⟩
    rw [hok.numnodes, hok'.numnodes, nodeCount, nodeCount, ← countP_map_true visible, heq,
      countP_map_true]

/-- "ab" is cut out of "abcd" and merged back; the other run never had it. -/
theorem canonical_of_raxNew_cut :
    ∃ (t : RaxTree ℕ) (answers : List (Answer ℕ)) (t' : RaxTree ℕ) (answers' : List (Answer ℕ)),
      Runs.run exec raxNew
        [(.raxInsert [97, 98, 99, 100] (some 1), Stream'.const .same),
          (.raxInsert [97, 98, 120] (some 2), Stream'.const .moved),
          (.raxInsert [97, 98] none, Stream'.const .same),
          (.raxRemove [97, 98], Stream'.const .same),
          (.raxRemove [97, 98, 120], Stream'.const .same)] = some (t, answers) ∧
      Runs.run exec raxNew
        [(.raxTryInsert [97, 98, 99, 100] (some 1), Stream'.const .same)] = some (t', answers') ∧
      (∀ p n, t.head.nodeAt p = some n → Single n.label →
        ∀ c ∈ n.children, ¬ (c.label.iskey = false ∧ Single c.label)) ∧
      ((∀ s a, raxFind t s a = raxFind t' s a) →
        t.head.map visible = t'.head.map visible ∧ t.numnodes = t'.numnodes) := by
  refine canonical_of_raxNew _ _ (fun c hc => ?_) (fun c hc => ?_) (by decide +kernel)
    (by decide +kernel)
  · simp only [List.mem_cons, List.not_mem_nil, or_false] at hc
    rcases hc with rfl | rfl | rfl | rfl | rfl
    all_goals exact ⟨noFail_const (by decide), by decide⟩
  · obtain rfl := List.mem_singleton.mp hc
    exact ⟨noFail_const (by decide), by decide⟩

/-- "FOOBAR" and "FOO" are inserted, then "FOO" is removed. -/
def fooCalls : List (Call ℕ × Allocs) :=
  [(.raxInsert [70, 79, 79, 66, 65, 82] (some 1), Stream'.const .same),
    (.raxInsert [70, 79, 79] (some 2), Stream'.const .same),
    (.raxRemove [70, 79, 79], Stream'.const .same)]

/-- "a", "ab" and "abc" are inserted, then "ab" is removed. -/
def upwardCalls : List (Call ℕ × Allocs) :=
  [(.raxInsert [97] (some 1), Stream'.const .same),
    (.raxInsert [97, 98] (some 2), Stream'.const .same),
    (.raxInsert [97, 98, 99] (some 3), Stream'.const .same),
    (.raxRemove [97, 98], Stream'.const .same)]

/-- "abc" is inserted, then "a". -/
def downwardCalls : List (Call ℕ × Allocs) :=
  [(.raxInsert [97, 98, 99] (some 3), Stream'.const .same),
    (.raxInsert [97] (some 1), Stream'.const .same)]

/-- Without the condition: the string "FOOBAR" stays cut in two nodes that are no
keys, and two ways to the map of "a" and "abc" leave four nodes and three, since
nothing is merged with the key "a". -/
theorem history_matters :
    (∃ t answers c, Runs.run exec raxNew fooCalls = some (t, answers) ∧
      t.head.label.iskey = false ∧ Single t.head.label ∧ t.head.children[0]? = some c ∧
      c.label.iskey = false ∧ Single c.label) ∧
    ∃ t answers t' answers', Runs.run exec raxNew upwardCalls = some (t, answers) ∧
      Runs.run exec raxNew downwardCalls = some (t', answers') ∧
      (∀ s a, raxFind t s a = raxFind t' s a) ∧ t.numnodes = 4 ∧ t'.numnodes = 3 := by
  have hok : ∀ calls ∈ [fooCalls, upwardCalls, downwardCalls], ∀ c ∈ calls, CallOk c := by
    intro calls hcalls c hc
    have hlen : c.1.key.length ≤ 6 ∧ c.2 = Stream'.const .same := by
      fin_cases hcalls <;> fin_cases hc <;> exact ⟨by decide, rfl⟩
    rw [CallOk, hlen.2]
    exact ⟨noFail_const (by decide), hlen.1.trans (by decide)⟩
  constructor
  · obtain ⟨t, hrun, -⟩ := run_refines refines_raxNew (hok fooCalls (by simp))
    have hshape : ((Runs.run exec raxNew fooCalls).map fun x =>
        (x.1.head.label.iskey, x.1.head.label.iscompr,
          x.1.head.children[0]?.map fun c => (c.label.iskey, c.label.iscompr)))
        = some (false, true, some (false, true)) := by decide +kernel
    rw [hrun, Option.map_some, Option.some.injEq, Prod.mk.injEq, Prod.mk.injEq,
      Option.map_eq_some_iff] at hshape
    obtain ⟨hkey, hcompr, c, hc, hcc⟩ := hshape
    rw [Prod.mk.injEq] at hcc
    exact ⟨t, _, c, hrun, hkey, .inl hcompr, hc, hcc.1, .inl hcc.2⟩
  · obtain ⟨t, hrun, ht⟩ := run_refines refines_raxNew (hok upwardCalls (by simp))
    obtain ⟨t', hrun', ht'⟩ := run_refines refines_raxNew (hok downwardCalls (by simp))
    have hmap : (Runs.specRun spec ∅ upwardCalls).1 = (Runs.specRun spec ∅ downwardCalls).1 := by
      decide +kernel
    have hnodes : ((Runs.run exec raxNew upwardCalls).map fun x => x.1.numnodes) = some 4 := by
      decide +kernel
    have hnodes' : ((Runs.run exec raxNew downwardCalls).map fun x => x.1.numnodes) = some 3 := by
      decide +kernel
    rw [hrun, Option.map_some, Option.some.injEq] at hnodes
    rw [hrun', Option.map_some, Option.some.injEq] at hnodes'
    refine ⟨t, _, t', _, hrun, hrun', fun s a => ?_, hnodes, hnodes'⟩
    rw [raxFind_eq_lookup ht.ok.nodes.shapes, raxFind_eq_lookup ht'.ok.nodes.shapes, ht.lookup,
      ht'.lookup, hmap]

end Rax
