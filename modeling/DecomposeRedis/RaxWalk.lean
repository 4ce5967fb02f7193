/-
Walking the radix tree: the parent stack, `raxLowWalk` and `raxFind` of rax.c.

Allocation is a stream of answers, consumed one by one by the calls of
`rax_malloc` and `rax_realloc`, so that a theorem about every stream is one
about every pattern of failures.  A result `none` stands for undefined
behaviour: a read outside the child array of a node, a NULL dereference, a
search for a child that is not there.

* `raxLowWalk_spec` — where the walk stops and why, in terms of the string
  spelled by the position of the stop node; the stack it returns is what
  pushing the proper prefixes of that position gives (`pushAll`);
* `pushAll_spec` — they are all on the stack unless `oom` is set;
* `raxFind_eq_lookup` — `raxFind` reads the map the tree stands for.
-/
import DecomposeRedis.RaxNode
import Mathlib.Data.Stream.Init

open RoseTree

namespace Rax

variable {V : Type} {a : Allocs}

/-! ### Memory -/

/-- What an allocation answers: NULL, the address passed in, or another one. -/
inductive AllocResult where
  | null
  | same
  | moved
  deriving DecidableEq

/-- The answers of the allocator from now on. -/
abbrev Allocs := Stream' AllocResult

/-- No allocation fails. -/
def NoFail (a : Allocs) : Prop := ∀ n, a.get n ≠ .null

theorem noFail_const {x : AllocResult} (h : x ≠ .null) : NoFail (Stream'.const x) := fun _ => h

theorem NoFail.head (h : NoFail a) : a.head ≠ .null := h 0

theorem NoFail.tail (h : NoFail a) : NoFail a.tail := fun n => h (n + 1)

/-- `b` is what is left of `a` after some answers. -/
def Used (a b : Allocs) : Prop := ∃ n, b = a.drop n

/-- `b` is what is left of `a` after some answers, none of them NULL. -/
def Granted (a b : Allocs) : Prop := ∃ n, (∀ k < n, a.get k ≠ .null) ∧ b = a.drop n

/-- `b` is what is left of `a` after the first NULL. -/
def Failed (a b : Allocs) : Prop :=
  ∃ n, (∀ k < n, a.get k ≠ .null) ∧ a.get n = .null ∧ b = a.drop (n + 1)

theorem Used.refl (a : Allocs) : Used a a := ⟨0, rfl⟩

theorem Used.tail (a : Allocs) : Used a a.tail := ⟨1, rfl⟩

theorem Used.trans {b c : Allocs} (h : Used a b) (h' : Used b c) : Used a c := by
  obtain ⟨m, rfl⟩ := h
  obtain ⟨n, rfl⟩ := h'
  exact ⟨m + n, Stream'.drop_drop n m a⟩

theorem Used.noFail {b : Allocs} (h : Used a b) (ha : NoFail a) : NoFail b := by
  obtain ⟨m, rfl⟩ := h
  intro n
  rw [Stream'.get_drop]
  exact ha _

theorem Granted.used {b : Allocs} (h : Granted a b) : Used a b := by
  obtain ⟨n, -, hb⟩ := h
  exact ⟨n, hb⟩

theorem Granted.refl (a : Allocs) : Granted a a := ⟨0, by simp, rfl⟩

theorem Granted.tail (h : a.head ≠ .null) : Granted a a.tail := by
  refine ⟨1, fun k hk => ?_, rfl⟩
  obtain rfl : k = 0 := by omega
  exact h

theorem get_ne_null_of_drop {m n : ℕ} (hm : ∀ k < m, a.get k ≠ .null)
    (hn : ∀ k < n, (a.drop m).get k ≠ .null) : ∀ k < m + n, a.get k ≠ .null := by
  intro k hk
  by_cases hkm : k < m
  · exact hm k hkm
  · have := hn (k - m) (by omega)
    rwa [Stream'.get_drop, show m + (k - m) = k by omega] at this

theorem Granted.trans {b c : Allocs} (h : Granted a b) (h' : Granted b c) : Granted a c := by
  obtain ⟨m, hm, rfl⟩ := h
  obtain ⟨n, hn, rfl⟩ := h'
  exact ⟨m + n, get_ne_null_of_drop hm hn, Stream'.drop_drop n m a⟩

theorem failed_tail (h : a.head = .null) : Failed a a.tail :=
  ⟨0, by simp, h, rfl⟩

theorem Granted.failed {b c : Allocs} (h : Granted a b) (h' : Failed b c) : Failed a c := by
  obtain ⟨m, hm, rfl⟩ := h
  obtain ⟨n, hn, hnull, rfl⟩ := h'
  rw [Stream'.get_drop] at hnull
  exact ⟨m + n, get_ne_null_of_drop hm hn, hnull, Stream'.drop_drop (n + 1) m a⟩

theorem NoFail.not_failed {b : Allocs} (h : NoFail a) : ¬ Failed a b := by
  rintro ⟨n, -, hnull, -⟩
  exact h n hnull

/-! ### The parent stack -/

/-- `RAX_STACK_STATIC_ITEMS` -/
def raxStackStaticItems : ℕ := 32

/-- A `raxStack`, its top item first.  `static` tells that the items are still
in the array `static_items`. -/
structure RaxStack where
  stack : List NodePtr
  maxitems : ℕ
  static : Bool
  oom : Bool

/-- `raxStackInit` -/
def raxStackInit : RaxStack where
  stack := []
  maxitems := raxStackStaticItems
  static := true
  oom := false

/-- `raxStackPush`.  The first growth is a `rax_malloc`, the later ones are
`rax_realloc`s; a failure is recorded and the item is dropped. -/
def raxStackPush (ts : RaxStack) (a : Allocs) (ptr : NodePtr) : RaxStack × Allocs :=
  if ts.stack.length = ts.maxitems then
    if a.head = .null then ({ ts with oom := true }, a.tail)
    else ({ ts with stack := ptr :: ts.stack, maxitems := ts.maxitems * 2, static := false },
      a.tail)
  else ({ ts with stack := ptr :: ts.stack }, a)

/-! ### The walk -/

/-- The local variables of `raxLowWalk`: the node `h` with its position, the
two indices, the stack if there is one, and the allocator. -/
structure Walk (V : Type) where
  ptr : NodePtr
  h : RaxNode V
  i : ℕ
  j : ℕ
  ts : Option RaxStack
  allocs : Allocs

/-- How many bytes of a compressed node match the key: the inner `for` loop. -/
def matchLen : List UInt8 → Key → ℕ
  | a :: v, b :: s => if a = b then matchLen v s + 1 else 0
  | _, _ => 0

/-- The tail of the loop body: save the parent, follow the `j`-th child. -/
def Walk.descend (w : Walk V) (i j : ℕ) : Option (Walk V) :=
  let pushed := match w.ts with
    | none => (none, w.allocs)
    | some ts => ((some (raxStackPush ts w.allocs w.ptr).1), (raxStackPush ts w.allocs w.ptr).2)
  w.h.children[j]?.map fun c =>
    { ptr := w.ptr ++ [j], h := c, i := i, j := 0, ts := pushed.1, allocs := pushed.2 }

/-- The loop of `raxLowWalk`.  Each turn that goes on consumes a byte of the
key, so its length is enough fuel. -/
def raxLowWalkLoop (s : Key) : ℕ → Walk V → Option (Walk V)
  | 0, w => some w
  | fuel + 1, w =>
    match s.drop w.i with
    | [] => some w
    | c :: rest =>
      if w.h.label.size = 0 then some w
      else if w.h.label.iscompr then
        let j := matchLen w.h.label.data (c :: rest)
        if j ≠ w.h.label.size then some { w with i := w.i + j, j := j }
        else (w.descend (w.i + j) 0).bind (raxLowWalkLoop s fuel)
      else
        let j := w.h.label.data.idxOf c
        if j = w.h.label.size then some { w with j := j }
        else (w.descend (w.i + 1) j).bind (raxLowWalkLoop s fuel)

/-- `raxLowWalk`.  On return `j` is `*splitpos`, which is only set when the walk
stops at a compressed node and is 0 otherwise. -/
def raxLowWalk (head : RaxNode V) (s : Key) (ts : Option RaxStack) (a : Allocs) :
    Option (Walk V) :=
  (raxLowWalkLoop s s.length { ptr := [], h := head, i := 0, j := 0, ts := ts, allocs := a }).map
    fun w => { w with j := if w.h.label.iscompr then w.j else 0 }

/-- The radix tree (`struct rax`). -/
structure RaxTree (V : Type) where
  head : RaxNode V
  numele : ℕ
  numnodes : ℕ

/-- `raxNew` -/
def raxNew : RaxTree V where
  head := raxNewNode [] []
  numele := 0
  numnodes := 1

/-- `raxSize` -/
def raxSize (t : RaxTree V) : ℕ := t.numele

/-- What `raxFind` returns: the special pointer `raxNotFound`, or the stored
pointer, NULL being `stored none`. -/
inductive Found (V : Type) where
  | raxNotFound
  | stored (data : Option V)
  deriving DecidableEq

/-- The test after the walk by which `raxFind` and `raxRemove` reject a key. -/
def Walk.misses (w : Walk V) (s : Key) : Bool :=
  w.i ≠ s.length || (w.h.label.iscompr && w.j ≠ 0) || !w.h.label.iskey

/-- `raxFind` -/
def raxFind (t : RaxTree V) (s : Key) (a : Allocs) : Option (Found V) :=
  (raxLowWalk t.head s none a).map fun w =>
    if w.misses s then .raxNotFound else .stored (raxGetData w.h.label)

/-! ### Where the walk stops -/

theorem matchLen_le (v : List UInt8) (s : Key) :
    matchLen v s ≤ v.length ∧ matchLen v s ≤ s.length := by
  fun_induction matchLen v s with
  | case1 v s a ih => simpa using ih
  | case2 | case3 => simp

/-- The matched bytes agree. -/
theorem take_matchLen (v : List UInt8) (s : Key) :
    s.take (matchLen v s) = v.take (matchLen v s) := by
  fun_induction matchLen v s with
  | case1 v s a ih => simp [ih]
  | case2 | case3 => simp

/-- After the matched bytes the node and the key differ. -/
theorem head_drop_matchLen_ne (v : List UInt8) (s : Key) {a b : UInt8} {v' s' : List UInt8}
    (hv : v.drop (matchLen v s) = a :: v') (hs : s.drop (matchLen v s) = b :: s') : a ≠ b := by
  fun_induction matchLen v s with
  | case1 v s x ih => exact ih (by simpa using hv) (by simpa using hs)
  | case2 x v y s h =>
    rw [← (List.cons.inj hv).1, ← (List.cons.inj hs).1]
    exact h
  | case3 v s h => exact absurd hs (h a v' b s' hv)

/-- The proper prefixes of a position, the head first. -/
def properPrefixes (p : NodePtr) : List NodePtr := (List.range p.length).map p.take

theorem properPrefixes_concat (p : NodePtr) (j : ℕ) :
    properPrefixes (p ++ [j]) = properPrefixes p ++ [p] := by
  rw [properPrefixes, List.length_append, List.length_singleton, List.range_succ,
    List.map_append]
  congr 1
  · refine List.map_congr_left fun k hk => ?_
    rw [List.take_append_of_le_length (List.mem_range.mp hk).le]
  · simp

/-- Push several items, the first one first. -/
def pushAll (ts : Option RaxStack) (a : Allocs) (l : List NodePtr) : Option RaxStack × Allocs :=
  l.foldl (fun x ptr => match x.1 with
    | none => x
    | some ts => (some (raxStackPush ts x.2 ptr).1, (raxStackPush ts x.2 ptr).2)) (ts, a)

/-- Where and why a walk along `s` stops. -/
structure WalkSpec (t : RaxNode V) (s : Key) (ts : Option RaxStack) (a : Allocs)
    (w : Walk V) : Prop where
  nodeAt : t.nodeAt w.ptr = some w.h
  le : w.i ≤ s.length
  /-- The consumed bytes lead to the node and `j` bytes into it. -/
  spelled : s.take w.i = spell t w.ptr ++ w.h.label.data.take w.j
  plain : w.h.label.iscompr = false → w.j = 0
  compr : w.h.label.iscompr = true → w.j < w.h.label.data.length
  /-- If the key is not used up, no edge of a plain node continues it, -/
  stopPlain : ∀ c rest, s.drop w.i = c :: rest → w.h.label.iscompr = false →
    c ∉ w.h.label.data
  /-- and the next byte of a compressed node differs. -/
  stopCompr : ∀ c rest, s.drop w.i = c :: rest → w.h.label.iscompr = true →
    ∀ d data', w.h.label.data.drop w.j = d :: data' → d ≠ c
  stack : (w.ts, w.allocs) = pushAll ts a (properPrefixes w.ptr)

/-- The state at the head of the loop: the consumed bytes lead to the node. -/
structure AtNode (t : RaxNode V) (s : Key) (ts : Option RaxStack) (a : Allocs)
    (w : Walk V) : Prop where
  nodeAt : t.nodeAt w.ptr = some w.h
  le : w.i ≤ s.length
  j : w.j = 0
  spelled : s.take w.i = spell t w.ptr
  stack : (w.ts, w.allocs) = pushAll ts a (properPrefixes w.ptr)

section Loop

variable {t : RaxNode V} {s : Key} {ts : Option RaxStack} {a : Allocs} {w : Walk V}

/-- Following the edge that the next bytes of the key name. -/
theorem AtNode.descend (h : AtNode t s ts a w) {c : RaxNode V} {j : ℕ}
    (hc : w.h.children[j]? = some c) {k : ℕ} (hk : w.i + k ≤ s.length)
    (hedge : (s.drop w.i).take k = edge w.h.label j) :
    ∃ w', w.descend (w.i + k) j = some w' ∧ AtNode t s ts a w' ∧ w'.i = w.i + k := by
  refine ⟨_, by rw [Walk.descend, hc]; rfl, ?_, rfl⟩
  have hchild : t.nodeAt (w.ptr ++ [j]) = some c := by
    rw [nodeAt_append, h.nodeAt]
    exact nodeAt_cons_eq_some.mpr ⟨c, hc, nodeAt_nil c⟩
  refine ⟨hchild, hk, rfl, ?_, ?_⟩
  · rw [List.take_add, h.spelled, hedge, spell_append _ h.nodeAt, spell_cons _ hc, spell_nil,
      List.append_nil]
  · have hstack := h.stack
    rw [properPrefixes_concat, pushAll, List.foldl_append]
    change _ = List.foldl _ (pushAll ts a (properPrefixes w.ptr)) [w.ptr]
    rw [← hstack]
    cases hts : w.ts with
    | none => simp
    | some ts' => simp

/-- Stopping at the head of the loop. -/
theorem AtNode.stop (ht : ShapesOk t) (h : AtNode t s ts a w)
    (hstop : ∀ c rest, s.drop w.i = c :: rest → w.h.label.iscompr = false ∧
      c ∉ w.h.label.data) (j : ℕ) (hj : w.h.label.iscompr = true → j = 0) :
    WalkSpec t s ts a { w with j := if w.h.label.iscompr then j else 0 } := by
  have hj0 : (if w.h.label.iscompr then j else 0) = 0 := by
    split_ifs with hc
    · exact hj hc
    · rfl
  have hshape := ht.shapeAt h.nodeAt
  refine ⟨h.nodeAt, h.le, ?_, fun _ => hj0, fun hc => ?_, ?_, ?_, h.stack⟩
  · simp [hj0, h.spelled]
  · have := (hshape.compr hc).1
    change (if w.h.label.iscompr then j else 0) < w.h.label.data.length
    omega
  · intro c rest hs _
    exact (hstop c rest hs).2
  · intro c rest hs hc
    rw [(hstop c rest hs).1] at hc
    cases hc

/-- Stopping inside a compressed node. -/
theorem AtNode.stopInside (h : AtNode t s ts a w)
    (hc : w.h.label.iscompr = true)
    (hj : matchLen w.h.label.data (s.drop w.i) ≠ w.h.label.size) :
    WalkSpec t s ts a { w with
      i := w.i + matchLen w.h.label.data (s.drop w.i)
      j := if w.h.label.iscompr then matchLen w.h.label.data (s.drop w.i) else 0 } := by
  set j := matchLen w.h.label.data (s.drop w.i) with hjdef
  obtain ⟨hlen, hlen'⟩ := matchLen_le w.h.label.data (s.drop w.i)
  rw [List.length_drop] at hlen'
  have hle := h.le
  rw [RaxHdr.size] at hj
  rw [if_pos hc]
  refine ⟨h.nodeAt, ?_, ?_, ?_, ?_, ?_, ?_, h.stack⟩
  · change w.i + j ≤ s.length
    omega
  · change s.take (w.i + j) = _
    rw [List.take_add, h.spelled, hjdef, take_matchLen]
  · intro hplain
    rw [hc] at hplain
    cases hplain
  · intro _
    change j < w.h.label.data.length
    omega
  · intro c rest _ hplain
    rw [hc] at hplain
    cases hplain
  · intro c rest hs _ d data' hd
    have hs' : (s.drop w.i).drop j = c :: rest := by
      rw [List.drop_drop]
      exact hs
    exact head_drop_matchLen_ne w.h.label.data (s.drop w.i) hd hs'

theorem raxLowWalkLoop_spec (ht : ShapesOk t) : ∀ fuel (w : Walk V), AtNode t s ts a w →
    s.length - w.i ≤ fuel →
    ∃ w', raxLowWalkLoop s fuel w = some w' ∧
      WalkSpec t s ts a { w' with j := if w'.h.label.iscompr then w'.j else 0 } := by
  intro fuel
  induction fuel with
  | zero =>
    intro w hw hfuel
    have hend : s.drop w.i = [] := List.drop_eq_nil_of_le (by omega)
    refine ⟨w, rfl, hw.stop ht (fun c rest hs => ?_) w.j fun _ => hw.j⟩
    rw [hend] at hs
    cases hs
  | succ fuel ih =>
    intro w hw hfuel
    have hshape := ht.shapeAt hw.nodeAt
    rw [raxLowWalkLoop]
    rcases hs : s.drop w.i with _ | ⟨c, rest⟩
    · refine ⟨w, rfl, hw.stop ht (fun c rest hs' => ?_) w.j fun _ => hw.j⟩
      rw [hs] at hs'
      cases hs'
    have hlen : s.length - w.i = rest.length + 1 := by
      rw [← List.length_drop, hs, List.length_cons]
    simp only
    by_cases hsize : w.h.label.size = 0
    · -- A node without children.
      rw [if_pos hsize]
      have hdata : w.h.label.data = [] := List.length_eq_zero_iff.mp hsize
      have hplain := (hshape.childless hdata).1
      exact ⟨w, rfl, hw.stop ht (fun c' rest' _ => ⟨hplain, by simp [hdata]⟩) w.j fun _ => hw.j⟩
    rw [if_neg hsize]
    cases hc : w.h.label.iscompr with
    | true =>
      rw [if_pos rfl, ← hs]
      by_cases hj : matchLen w.h.label.data (s.drop w.i) = w.h.label.size
      · -- The whole string of the node matches: go on with its only child.
        rw [if_neg (by simpa using hj)]
        obtain ⟨c', hc'⟩ := List.length_eq_one_iff.mp (hshape.compr hc).2
        have hmatch := (matchLen_le w.h.label.data (s.drop w.i)).2
        rw [List.length_drop] at hmatch
        obtain ⟨w', hw', hat, hi⟩ := hw.descend (j := 0) (c := c') (by rw [hc']; rfl)
          (k := matchLen w.h.label.data (s.drop w.i)) (by have := hw.le; omega)
          (by rw [take_matchLen, hj, edge_compr hc, RaxHdr.size, List.take_length])
        rw [hw', Option.bind_some]
        exact ih w' hat (by omega)
      · rw [if_pos hj]
        refine ⟨_, rfl, ?_⟩
        exact hw.stopInside hc hj
    | false =>
      rw [if_neg (by simp)]
      by_cases hj : w.h.label.data.idxOf c = w.h.label.size
      · rw [if_pos hj]
        refine ⟨_, rfl, ?_⟩
        refine hw.stop ht (fun c' rest' hs' => ⟨hc, ?_⟩) _ fun hcompr => ?_
        · rw [hs] at hs'
          rw [← (List.cons.inj hs').1]
          exact List.idxOf_eq_length_iff.mp hj
        · rw [hc] at hcompr
          cases hcompr
      · -- An edge carries the next byte.
        rw [if_neg hj]
        have hlt : w.h.label.data.idxOf c < w.h.label.data.length :=
          lt_of_le_of_ne List.idxOf_le_length hj
        have hlt' := (hshape.lt_iff hc).mpr hlt
        obtain ⟨w', hw', hat, hi⟩ := hw.descend (List.getElem?_eq_getElem hlt')
          (k := 1) (by omega)
          (by rw [hs, edge_plain hc hlt, List.getElem_idxOf]; rfl)
        rw [hw', Option.bind_some]
        exact ih w' hat (by omega)

end Loop

/-- **The walk.**  On a well-formed tree `raxLowWalk` is defined; it stops where
`WalkSpec` says. -/
theorem raxLowWalk_spec {t : RaxNode V} (ht : ShapesOk t) (s : Key) (ts : Option RaxStack)
    (a : Allocs) : ∃ w, raxLowWalk t s ts a = some w ∧ WalkSpec t s ts a w := by
  obtain ⟨w, hw, hspec⟩ := raxLowWalkLoop_spec (s := s) (a := a) ht s.length
    { ptr := [], h := t, i := 0, j := 0, ts := ts, allocs := a }
    ⟨nodeAt_nil t, Nat.zero_le _, rfl, by simp, rfl⟩ (Nat.sub_le _ _)
  exact ⟨_, by rw [raxLowWalk, hw]; rfl, hspec⟩

theorem WalkSpec.of_eq {t : RaxNode V} (ht : ShapesOk t) {s : Key} {ts : Option RaxStack}
    {w : Walk V} (hw : raxLowWalk t s ts a = some w) : WalkSpec t s ts a w := by
  obtain ⟨w', hw', hspec⟩ := raxLowWalk_spec ht s ts a
  rwa [Option.some.inj (hw.symm.trans hw')]

/-! ### The stack after the walk -/

/-- The proper prefixes of a position, the parent first. -/
def ancestors (p : NodePtr) : List NodePtr := (properPrefixes p).reverse

@[simp] theorem ancestors_nil : ancestors [] = [] := rfl

theorem ancestors_concat (p : NodePtr) (j : ℕ) : ancestors (p ++ [j]) = p :: ancestors p := by
  rw [ancestors, properPrefixes_concat, List.reverse_append]
  rfl

theorem ancestors_append (p q : NodePtr) :
    (ancestors (p ++ q)).drop q.length = ancestors p := by
  induction q using List.reverseRecOn with
  | nil => simp
  | append_singleton q j ih =>
    rw [← List.append_assoc, ancestors_concat, List.length_append, List.length_singleton,
      List.drop_succ_cons]
    exact ih

theorem mem_ancestors {p q : NodePtr} (h : q ∈ ancestors p) : q <+: p ∧ q ≠ p := by
  rw [ancestors, List.mem_reverse, properPrefixes, List.mem_map] at h
  obtain ⟨k, hk, rfl⟩ := h
  rw [List.mem_range] at hk
  refine ⟨List.take_prefix _ _, fun h => ?_⟩
  have := congrArg List.length h
  rw [List.length_take] at this
  omega

/-- A push drops its item and sets `oom`, or it puts the item on top. -/
theorem raxStackPush_cases (ts : RaxStack) (a : Allocs) (ptr : NodePtr) :
    Used a (raxStackPush ts a ptr).2 ∧
      ((raxStackPush ts a ptr).1.oom = true ∧ ¬ NoFail a ∨
        (raxStackPush ts a ptr).1.stack = ptr :: ts.stack ∧
          (raxStackPush ts a ptr).1.oom = ts.oom) := by
  rw [raxStackPush]
  split_ifs with h1 h2
  · exact ⟨Used.tail a, .inl ⟨rfl, fun ha => ha.head h2⟩⟩
  · exact ⟨Used.tail a, .inr ⟨rfl, rfl⟩⟩
  · exact ⟨Used.refl a, .inr ⟨rfl, rfl⟩⟩

/-- Unless `oom` is set, the pushed items are all on the stack. -/
theorem pushAll_spec (ts : RaxStack) (a : Allocs) (l : List NodePtr) :
    ∃ ts' b, pushAll (some ts) a l = (some ts', b) ∧ Used a b ∧
      (ts'.oom = false → ts.oom = false ∧ ts'.stack = l.reverse ++ ts.stack) ∧
      (NoFail a → ts'.oom = ts.oom) := by
  induction l generalizing ts a with
  | nil => exact ⟨ts, a, rfl, Used.refl a, fun h => ⟨h, by simp⟩, fun _ => rfl⟩
  | cons ptr l ih =>
    obtain ⟨hused, hpush⟩ := raxStackPush_cases ts a ptr
    obtain ⟨ts', b, hall, hused', hstack, hoom⟩ := ih (raxStackPush ts a ptr).1
      (raxStackPush ts a ptr).2
    refine ⟨ts', b, hall, hused.trans hused', fun h => ?_, fun ha => ?_⟩
    · obtain ⟨h1, h2⟩ := hstack h
      rcases hpush with ⟨hp, -⟩ | ⟨hp1, hp2⟩
      · rw [hp] at h1
        cases h1
      · refine ⟨hp2.symm.trans h1, ?_⟩
        rw [h2, hp1, List.reverse_cons, List.append_assoc]
        rfl
    · rw [hoom (hused.noFail ha)]
      rcases hpush with ⟨-, hp⟩ | ⟨-, hp⟩
      · exact absurd ha hp
      · exact hp

/-! ### Finding a key -/

section Find

variable {t : RaxNode V} {s : Key} {ts : Option RaxStack} {a : Allocs} {w : Walk V}

/-- What the walk says about the key it followed. -/
theorem WalkSpec.lookup_eq (ht : ShapesOk t) (h : WalkSpec t s ts a w) :
    lookup t s = lookup w.h (w.h.label.data.take w.j ++ s.drop w.i) := by
  rw [← lookup_spell ht h.nodeAt, ← List.append_assoc, ← h.spelled, List.take_append_drop]

/-- A string that leaves a compressed node before its end is not stored. -/
theorem lookup_compr_of_leaves {n : RaxNode V} (hn : ShapeOk n.label n.children.length)
    (hc : n.label.iscompr = true) {j : ℕ} (hj : j < n.label.data.length) {rest : Key}
    (hne : n.label.data.take j ++ rest ≠ [])
    (hrest : ∀ c rest', rest = c :: rest' → ∀ d data', n.label.data.drop j = d :: data' → d ≠ c) :
    lookup n (n.label.data.take j ++ rest) = none := by
  obtain ⟨l, cs⟩ := n
  simp only [label_node, children_node] at hn hc hj hne hrest ⊢
  obtain ⟨c', rfl⟩ := List.length_eq_one_iff.mp (hn.compr hc).2
  rw [lookup_compr hc (hn.data_ne_nil hc) hne, if_neg]
  intro hpre
  have hsplit : l.data.take j ++ l.data.drop j <+: l.data.take j ++ rest := by
    rw [List.take_append_drop]
    exact hpre
  have hpre' : l.data.drop j <+: rest := (List.prefix_append_right_inj _).mp hsplit
  obtain ⟨d, data', hd⟩ := List.exists_cons_of_ne_nil
    (List.ne_nil_of_length_pos (l := l.data.drop j) (by rw [List.length_drop]; omega))
  rw [hd] at hpre'
  obtain ⟨suffix, hsuffix⟩ := hpre'
  exact hrest d (data' ++ suffix) (by rw [← hsuffix]; rfl) d data' hd rfl

/-- If the walk stops before the end of the key, the key is not stored. -/
theorem WalkSpec.lookup_of_lt (ht : ShapesOk t) (h : WalkSpec t s ts a w) (hi : w.i < s.length) :
    lookup t s = none := by
  obtain ⟨c, rest, hs⟩ := List.exists_cons_of_ne_nil
    (List.ne_nil_of_length_pos (l := s.drop w.i) (by rw [List.length_drop]; omega))
  have hshape := ht.shapeAt h.nodeAt
  rw [h.lookup_eq ht, hs]
  cases hc : w.h.label.iscompr with
  | true =>
    refine lookup_compr_of_leaves hshape hc (h.compr hc) (by simp) fun c' rest' hr d data' hd => ?_
    rw [← (List.cons.inj hr).1]
    exact h.stopCompr c rest hs hc d data' hd
  | false =>
    rw [h.plain hc, List.take_zero, List.nil_append, ← node_eta w.h]
    exact lookup_plain_of_not_mem hshape hc (h.stopPlain c rest hs hc) rest

/-- If the key ends inside a compressed node, it is not stored. -/
theorem WalkSpec.lookup_of_inside (ht : ShapesOk t) (h : WalkSpec t s ts a w)
    (hi : w.i = s.length) (hj : w.j ≠ 0) : lookup t s = none := by
  have hshape := ht.shapeAt h.nodeAt
  cases hc : w.h.label.iscompr with
  | false => exact absurd (h.plain hc) hj
  | true =>
    have hlt := h.compr hc
    rw [h.lookup_eq ht, List.drop_eq_nil_of_le (by omega)]
    refine lookup_compr_of_leaves hshape hc hlt ?_ (by simp)
    rw [List.append_nil]
    exact List.ne_nil_of_length_pos (by rw [List.length_take]; omega)

/-- If the key ends at a node, it is that node that decides. -/
theorem WalkSpec.lookup_of_at (ht : ShapesOk t) (h : WalkSpec t s ts a w)
    (hi : w.i = s.length) (hj : w.j = 0) :
    lookup t s = if w.h.label.iskey then some (raxGetData w.h.label) else none := by
  rw [h.lookup_eq ht, List.drop_eq_nil_of_le (by omega), hj]
  exact lookup_nil w.h

/-- The test after the walk is whether the key is stored. -/
theorem WalkSpec.misses_iff (ht : ShapesOk t) (h : WalkSpec t s ts a w) :
    w.misses s = true ↔ lookup t s = none := by
  by_cases hi : w.i = s.length
  · by_cases hj : w.j = 0
    · rw [h.lookup_of_at ht hi hj]
      simp [Walk.misses, hi, hj]
    · have hc : w.h.label.iscompr = true := by
        by_contra hc
        exact hj (h.plain (by simpa using hc))
      rw [h.lookup_of_inside ht hi hj]
      simp [Walk.misses, hj, hc]
  · rw [h.lookup_of_lt ht (lt_of_le_of_ne h.le hi)]
    simp [Walk.misses, hi]

/-- If the key is stored, the walk stops exactly at its node. -/
theorem WalkSpec.of_not_misses (h : WalkSpec t s ts a w) (hm : w.misses s = false) :
    w.i = s.length ∧ w.j = 0 ∧ w.h.label.iskey = true ∧ spell t w.ptr = s := by
  simp only [Walk.misses, ne_eq, decide_not, Bool.or_eq_false_iff, Bool.not_eq_eq_eq_not,
    Bool.not_false, decide_eq_true_eq, Bool.and_eq_false_iff] at hm
  obtain ⟨⟨hi, hcj⟩, hkey⟩ := hm
  have hj : w.j = 0 := by
    rcases hcj with hc | hj
    · exact h.plain hc
    · simpa using hj
  refine ⟨hi, hj, hkey, ?_⟩
  have := h.spelled
  rw [hi, hj, List.take_length, List.take_zero, List.append_nil] at this
  exact this.symm

end Find

/-- What `raxFind` makes of the map. -/
def Found.ofLookup : Option (Option V) → Found V
  | none => .raxNotFound
  | some d => .stored d

/-- **`raxFind` reads the map** that the tree stands for. -/
theorem raxFind_eq_lookup {t : RaxTree V} (ht : ShapesOk t.head) (s : Key) (a : Allocs) :
    raxFind t s a = some (Found.ofLookup (lookup t.head s)) := by
  obtain ⟨w, hw, hspec⟩ := raxLowWalk_spec ht s none a
  rw [raxFind, hw, Option.map_some]
  congr 1
  cases hm : w.misses s with
  | true =>
    rw [if_pos rfl, (hspec.misses_iff ht).mp hm]
    rfl
  | false =>
    obtain ⟨hi, hj, hkey, -⟩ := hspec.of_not_misses hm
    rw [if_neg (by simp), hspec.lookup_of_at ht hi hj, hkey]
    rfl

end Rax
