/-
The radix tree when allocations fail.

An insertion that runs out of memory after it changed the tree makes the node
it reached a NULL key and removes it again.  That undoes the work if the node is
a new leaf; if it is a leaf that was there before, and hence a key, the key is
lost.  A removal relies on the parents that `raxLowWalk` saved, and a push that
failed leaves a gap among them.

* `InsertSafe` — the failure does not hit the first growth of a leaf that is a
  key, and if the exit `oom` is taken at a leaf, the parent stack can grow;
* `StepSafe` — what a call needs for the tree to stay well formed, whatever
  else fails: `InsertSafe` for an insertion, `StackSuffices` for a removal;
* `insert_atomic_of_safe`, `remove_exact_of_safe` — what then holds in every
  run from `raxNew`.
-/
import DecomposeRedis.RaxFree

open RoseTree

namespace Rax

variable {V : Type} {t : RaxNode V} {a : Allocs} {s : Key}

/-! ### The node of a string -/

/-- Only one position spells a given string. -/
theorem spell_injective {n m : RaxNode V} {p q : NodePtr} (ht : ShapesOk t)
    (hn : t.nodeAt p = some n) (hm : t.nodeAt q = some m) (h : spell t p = spell t q) : p = q := by
  induction p generalizing t q with
  | nil =>
    rcases q with _ | ⟨j, q⟩
    · rfl
    · obtain ⟨d, hd, -⟩ := nodeAt_cons_eq_some.mp hm
      rw [spell_nil, spell_cons q hd] at h
      exact absurd (List.append_eq_nil_iff.mp h.symm).1 (edge_ne_nil ht.shape hd)
  | cons i p ih =>
    obtain ⟨c, hc, hn⟩ := nodeAt_cons_eq_some.mp hn
    rcases q with _ | ⟨j, q⟩
    · rw [spell_nil, spell_cons p hc] at h
      exact absurd (List.append_eq_nil_iff.mp h).1 (edge_ne_nil ht.shape hc)
    · obtain ⟨d, hd, hm⟩ := nodeAt_cons_eq_some.mp hm
      have hi : i < t.children.length := (List.getElem?_eq_some_iff.mp hc).choose
      have hj : j < t.children.length := (List.getElem?_eq_some_iff.mp hd).choose
      rw [spell_cons p hc, spell_cons q hd] at h
      -- The first edge already tells the children apart.
      have hij : i = j := by
        cases hcompr : t.label.iscompr with
        | true =>
          have := (ht.shape.compr hcompr).2
          omega
        | false =>
          have hlen := ht.shape.plain hcompr
          rw [edge_plain hcompr (by omega), edge_plain hcompr (by omega)] at h
          exact ((ht.shape.nodup hcompr).getElem_inj_iff).mp (List.cons.inj h).1
      subst hij
      obtain rfl : c = d := Option.some.inj (hc.symm.trans hd)
      rw [ih (ht.child (List.mem_of_getElem? hc)) hn hm (List.append_cancel_left h)]

/-! ### Pushes that succeed -/

/-- Pushing up to `n` items on a new stack does not fail. -/
def PushesSucceed (a : Allocs) (n : ℕ) : Prop :=
  ∀ l : List NodePtr, l.length ≤ n → ∀ ts b, pushAll (some raxStackInit) a l = (some ts, b) →
    ts.oom = false

/-- The items in the static array never fail. -/
theorem pushesSucceed_of_le (a : Allocs) {n : ℕ} (hn : n ≤ raxStackStaticItems) :
    PushesSucceed a n := by
  have hall : ∀ (l : List NodePtr) (ts : RaxStack), ts.stack.length + l.length ≤ ts.maxitems →
      ∃ ts', pushAll (some ts) a l = (some ts', a) ∧ ts'.oom = ts.oom := by
    intro l
    induction l with
    | nil =>
      intro ts _
      exact ⟨ts, rfl, rfl⟩
    | cons ptr l ih =>
      intro ts hts
      rw [List.length_cons] at hts
      have hpush : raxStackPush ts a ptr = ({ ts with stack := ptr :: ts.stack }, a) := by
        rw [raxStackPush, if_neg (by omega)]
      obtain ⟨ts', hts', hoom⟩ := ih { ts with stack := ptr :: ts.stack } (by
        simp only [List.length_cons]
        omega)
      refine ⟨ts', ?_, hoom⟩
      rw [← hts', pushAll, List.foldl_cons]
      simp only [hpush]
      rfl
  intro l hl ts b hpush
  obtain ⟨ts', hts', hoom⟩ := hall l raxStackInit (by simpa [raxStackInit] using hl.trans hn)
  rw [hpush] at hts'
  obtain rfl : ts = ts' := Option.some.inj (Prod.mk.inj hts').1
  exact hoom

/-- If the pushes succeed, the parents of a node that is not too deep are all on
the stack. -/
theorem PushesSucceed.parentsKnown {w : Walk V} {ts : RaxStack} {d : ℕ} (h : PushesSucceed a d)
    (hspec : WalkSpec t s (some raxStackInit) a w) (hts : w.ts = some ts) (hd : w.ptr.length ≤ d) :
    ParentsKnown t w.ptr ts.stack w.allocs := by
  obtain ⟨ts', hts', -, hcomplete, -⟩ := hspec.stack_eq
  obtain rfl : ts' = ts := Option.some.inj (hts'.symm.trans hts)
  have hoom : ts'.oom = false := by
    refine h (properPrefixes w.ptr) ?_ ts' w.allocs ?_
    · simpa [properPrefixes] using hd
    · rw [← hspec.stack, hts']
  rw [hcomplete hoom]
  exact parentsKnown_ancestors t w.ptr w.allocs

/-- The stack suffices to remove the key of a node that is not too deep. -/
theorem PushesSucceed.stackSuffices {n : RaxNode V} {p : NodePtr} {d : ℕ}
    (h : PushesSucceed a d) (ht : ShapesOk t) (hn : t.nodeAt p = some n) (hp : p.length ≤ d) :
    StackSuffices t (spell t p) a := by
  intro w ts hw hts hmiss _
  have hspec := WalkSpec.of_eq ht hw
  obtain ⟨-, -, -, hspell⟩ := hspec.of_not_misses hmiss
  have hptr : w.ptr = p := spell_injective ht hspec.nodeAt hn hspell
  exact h.parentsKnown hspec hts (by rw [hptr]; exact hp)

/-- A path has no more nodes than bytes. -/
theorem length_le_spell {n : RaxNode V} {p : NodePtr} (ht : ShapesOk t)
    (hn : t.nodeAt p = some n) : p.length ≤ (spell t p).length := by
  induction p generalizing t with
  | nil => exact Nat.zero_le _
  | cons i p ih =>
    obtain ⟨c, hc, hn⟩ := nodeAt_cons_eq_some.mp hn
    have hpos := List.length_pos_of_ne_nil (edge_ne_nil ht.shape hc)
    have := ih (ht.child (List.mem_of_getElem? hc)) hn
    rw [spell_cons p hc, List.length_cons, List.length_append]
    omega

theorem WalkSpec.length_le {ts : Option RaxStack}
    {w : Walk V} (h : WalkSpec t s ts a w) (ht : ShapesOk t) : w.ptr.length ≤ s.length := by
  have h1 := length_le_spell ht h.nodeAt
  have h2 := congrArg List.length h.spelled
  have h3 := h.le
  rw [List.length_take, List.length_append] at h2
  omega

/-- Short keys never need more than the static array. -/
theorem stackSuffices_of_short (ht : ShapesOk t)
    (hs : s.length ≤ raxStackStaticItems) (a : Allocs) : StackSuffices t s a := by
  intro w ts hw hts _ _
  have hspec := WalkSpec.of_eq ht hw
  exact (pushesSucceed_of_le a hs).parentsKnown hspec hts (hspec.length_le ht)

/-! ### The exit `oom` -/

section Oom

variable {t : RaxTree V} {s : Key} {st : Insertion V} {h : RaxNode V} {data : Option V}

/-- What an insertion needs so that a failed allocation does no harm: the first
growth of a leaf that is a key succeeds, and where the call takes the exit `oom`
at a leaf, the parent stack can take the path to it. -/
structure InsertSafe (t : RaxTree V) (s : Key) (data : Option V) (a : Allocs) : Prop where
  leaf : ∀ w, raxLowWalk t.head s none a = some w → w.i < s.length → w.h.label.size = 0 →
    w.h.label.iskey = true → (growAllocs a).1 = true
  stack : ∀ st h, oomState t s data a = some st → st.rax.head.nodeAt st.ptr = some h →
    h.label.size = 0 → PushesSucceed st.allocs st.ptr.length

/-- The exit `oom` is taken on the way to the key, after a failure. -/
theorem oomState_spec (ht : NodesOk t.head) (hst : oomState t s data a = some st) :
    (∃ h, Growing t s st h) ∧ Failed a st.allocs := by
  have hcases := raxGenericInsert_cases ht s data true a
  rw [hst] at hcases
  generalize raxGenericInsert t s data true a = res at hcases
  cases hcases with
  | oom _ hgrow hfailed _ => exact ⟨⟨_, hgrow⟩, hfailed⟩

theorem insertSafe_of_noFail (ht : NodesOk t.head) (s : Key) (data : Option V) (ha : NoFail a) :
    InsertSafe t s data a := by
  refine ⟨fun _ _ _ _ _ => ?_,
    fun _ _ hst _ _ => absurd (oomState_spec ht hst).2 ha.not_failed⟩
  rcases growAllocs_cases a with ⟨h, -⟩ | ⟨-, h⟩
  · exact h
  · exact absurd h ha.not_failed

/-- For short keys the clean-up does not need more than the static array. -/
theorem stack_of_short (ht : NodesOk t.head) (hs : s.length ≤ raxStackStaticItems)
    (hst : oomState t s data a = some st) : PushesSucceed st.allocs st.ptr.length := by
  obtain ⟨⟨h, hgrow⟩, -⟩ := oomState_spec ht hst
  have hlen := length_le_spell hgrow.shapes hgrow.nodeAt
  rw [hgrow.spelled, List.length_take] at hlen
  exact pushesSucceed_of_le _ (by omega)

/-- A state of the loop in which the node is not a useless leaf is a good tree. -/
theorem Growing.raxOk (hst : Growing t s st h) (ht : RaxOk t) (hleaf : LeafOk h) :
    RaxOk st.rax := by
  have hok := hst.hole h hst.nodes fun _ => hleaf
  rw [replace_self hst.nodeAt] at hok
  refine ⟨hok, ?_, ?_⟩
  · rw [hst.same.numele, hst.same.keys, ht.numele]
  · have h1 := hst.same.numnodes
    have h2 := ht.numnodes
    omega

/-- A leaf that is no key is made one and removed: the map is as it was. -/
theorem insertOom_leaf (hst : Growing t s st h) (ht : RaxOk t) (hfit : KeysFit t.head)
    (hs : s.length ≤ raxNodeMaxSize) (hsize : h.label.size = 0) (hkey : h.label.iskey = false)
    (hpush : PushesSucceed st.allocs st.ptr.length) :
    ∃ r, insertOom s st = some ⟨r, 0, none, .enomem⟩ ∧ RaxOk r ∧ r.numele = t.numele ∧
      ∀ k, lookup r.head k = lookup t.head k := by
  set marked : RaxTree V := { st.rax with
    head := st.rax.head.replace st.ptr (setKey h none)
    numele := st.rax.numele + 1 } with hmarked
  have hins : Inserted t (s.take st.i) none marked := by
    have := inserted_setKey hst.nodeAt hst.shapes hst.hole hst.nodes hkey none
    rw [hst.spelled] at this
    exact this.of_same hst.same
  have hok := hins.raxOk ht
  have hspell : spell marked.head st.ptr = s.take st.i := by
    rw [← hst.spelled]
    exact spell_replace _ hst.nodeAt
  have hnone : lookup t.head (s.take st.i) = none := by
    have := lookup_spell hst.shapes hst.nodeAt []
    rw [hst.spelled, List.append_nil, hst.same.lookup, lookup_nil, hkey] at this
    exact this
  have hfit' : KeysFit marked.head :=
    hfit.updates ((List.length_take_le' _ _).trans hs) hins.updates
  have hstack := hpush.stackSuffices hok.nodes.shapes (nodeAt_replace (setKey h none) hst.nodeAt)
    le_rfl
  rw [hspell] at hstack
  rcases raxRemove_spec hok hfit' hstack with ⟨hmiss, -⟩ | ⟨d, r, -, heq, hrem⟩
  · rw [hins.updates, if_pos rfl] at hmiss
    cases hmiss
  · refine ⟨r, ?_, hrem.ok, ?_, fun k => ?_⟩
    · have hset : node { h.label with isnull := true, iskey := true } h.children = setKey h none :=
        rfl
      simp only [insertOom, hst.nodeAt, hsize, hset, Option.bind_eq_bind, Option.bind_some,
        if_true, ← hmarked, heq]
      rfl
    · have h1 := hrem.numele
      have h2 := hins.numele
      omega
    · rw [hrem.updates k, hins.updates k]
      split_ifs with hk
      · rw [hk, hnone]
      · rfl

/-- **Insertion with failures.**  A safe insertion is defined, keeps the tree
well formed, and if it reports ENOMEM the map is as it was. -/
theorem raxGenericInsert_of_safe {a : Allocs} (ht : RaxOk t) (hfit : KeysFit t.head)
    (hs : s.length ≤ raxNodeMaxSize) (hsafe : InsertSafe t s data a) (overwrite : Bool) :
    ∃ r, raxGenericInsert t s data overwrite a = some r ∧ RaxOk r.rax ∧ KeysFit r.rax.head ∧
      (r.errno = .enomem →
        (∀ k, lookup r.rax.head k = lookup t.head k) ∧ r.rax.numele = t.numele) := by
  obtain ⟨res, hres⟩ : ∃ res, raxGenericInsert t s data overwrite a = res := ⟨_, rfl⟩
  obtain ⟨exit, hexit⟩ : ∃ exit, oomState t s data a = exit := ⟨_, rfl⟩
  have hcases := raxGenericInsert_cases ht.nodes s data overwrite a
  rw [hexit, hres] at hcases
  rw [hres]
  cases hcases with
  | present hlookup hstored =>
    refine ⟨_, rfl, hstored.raxOk ht, fun k d hk => ?_, fun he => by cases he⟩
    rw [hstored.updates k] at hk
    split_ifs at hk with hks
    all_goals first | rw [hks]; exact hs | exact hfit k d hk
  | inserted hlookup hins =>
    exact ⟨_, rfl, hins.raxOk ht, hfit.updates hs hins.updates, fun he => by cases he⟩
  | unchanged _ => exact ⟨_, rfl, ht, hfit, fun _ => ⟨fun k => rfl, rfl⟩⟩
  | @oom st h hlookup hst hfailed hnode =>
    by_cases hsize : h.label.size = 0
    · -- A leaf: it was made in this call, or it is the empty head.
      have hkey : h.label.iskey = false := by
        rcases hnode with rfl | hne | ⟨w, hw, hlt, hrax, hptr, hfail⟩
        · rfl
        · exact absurd hsize hne
        · by_contra hkey
          have hwh : w.h = h := by
            have := hst.nodeAt
            rw [hrax, ← hptr, (WalkSpec.of_eq ht.nodes.shapes hw).nodeAt] at this
            exact Option.some.inj this
          have := hsafe.leaf w hw hlt (by rw [hwh]; exact hsize) (by rw [hwh]; simpa using hkey)
          rw [hfail] at this
          cases this
      have hpush := hsafe.stack st h hexit hst.nodeAt hsize
      obtain ⟨r, hr, hok, hnumele, hsame⟩ := insertOom_leaf hst ht hfit hs hsize hkey hpush
      refine ⟨_, hr, hok, fun k d hk => ?_, fun _ => ⟨hsame, hnumele⟩⟩
      rw [hsame] at hk
      exact hfit k d hk
    · refine ⟨⟨st.rax, 0, none, .enomem⟩, ?_, hst.raxOk ht fun h0 => ?_, fun k d hk => ?_,
        fun _ => ⟨hst.same.lookup, hst.same.numele⟩⟩
      · simp [insertOom, hst.nodeAt, hsize]
      · exact absurd (List.length_eq_zero_iff.mpr h0) hsize
      · rw [hst.same.lookup] at hk
        exact hfit k d hk

end Oom

/-! ### Runs with failures -/

/-- What a call needs for the tree to stay well formed, whatever allocations
fail during the call. -/
def StepSafe (t : RaxTree V) (c : Call V × Allocs) : Prop :=
  match c.1 with
  | .raxInsert s data => s.length ≤ raxNodeMaxSize ∧ InsertSafe t s data c.2
  | .raxTryInsert s data => s.length ≤ raxNodeMaxSize ∧ InsertSafe t s data c.2
  | .raxRemove s => StackSuffices t.head s c.2
  | .raxFind _ => True

theorem exec_of_safe (t : RaxTree V) (c : Call V × Allocs) (ht : RaxOk t ∧ KeysFit t.head)
    (hc : StepSafe t c) : ∃ t' o, exec t c = some (t', o) ∧ RaxOk t' ∧ KeysFit t'.head := by
  obtain ⟨hok, hfit⟩ := ht
  obtain ⟨c, a⟩ := c
  cases c with
  | raxInsert s data =>
    obtain ⟨r, hr, hrok, hrfit, -⟩ := raxGenericInsert_of_safe hok hfit hc.1 hc.2 true
    exact ⟨r.rax, _, by simp only [exec, raxInsert, hr, Option.map_some]; rfl, hrok, hrfit⟩
  | raxTryInsert s data =>
    obtain ⟨r, hr, hrok, hrfit, -⟩ := raxGenericInsert_of_safe hok hfit hc.1 hc.2 false
    exact ⟨r.rax, _, by simp only [exec, raxTryInsert, hr, Option.map_some]; rfl, hrok, hrfit⟩
  | raxRemove s =>
    rcases raxRemove_spec hok hfit hc with ⟨-, heq⟩ | ⟨d, r, -, heq, hrem⟩
    · exact ⟨t, _, by simp only [exec, heq, Option.map_some]; rfl, hok, hfit⟩
    · exact ⟨r, _, by simp only [exec, heq, Option.map_some]; rfl, hrem.ok,
        hfit.of_updates hrem.updates⟩
  | raxFind s =>
    exact ⟨t, _, by simp only [exec, raxFind_eq_lookup hok.nodes.shapes, Option.map_some]; rfl,
      hok, hfit⟩

/-- Calls for which no allocation fails are safe, if their keys fit into a node. -/
theorem meets_of_noFail {calls : List (Call V × Allocs)}
    (h : ∀ c ∈ calls, c.1.key.length ≤ raxNodeMaxSize ∧ NoFail c.2) :
    Runs.Meets exec StepSafe raxNew calls := by
  refine @Runs.meets_of_invariant _ _ _ _ _ _ _ (fun t => RaxOk t ∧ KeysFit t.head)
    (fun t c t' o ht hc hexec => ?_) ⟨refines_raxNew.ok, refines_raxNew.fit⟩ fun t ht c hc => ?_
  · obtain ⟨t'', o', hexec', hok⟩ := exec_of_safe t c ht hc
    obtain ⟨⟩ := hexec'.symm.trans hexec
    exact hok
  · obtain ⟨hs, ha⟩ := h c hc
    obtain ⟨c, a⟩ := c
    cases c with
    | raxInsert s data | raxTryInsert s data =>
      exact ⟨hs, insertSafe_of_noFail ht.1.nodes s data ha⟩
    | raxRemove s => exact ha.stackSuffices ht.1.nodes.shapes
    | raxFind s => trivial

/-- Every run of safe calls is defined and ends in a well-formed tree. -/
theorem run_of_safe {calls : List (Call V × Allocs)}
    (hcalls : Runs.Meets exec StepSafe raxNew calls) :
    ∃ t answers, Runs.run exec raxNew calls = some (t, answers) ∧ RaxOk t ∧ KeysFit t.head :=
  Runs.run_invariant exec_of_safe ⟨refines_raxNew.ok, refines_raxNew.fit⟩ hcalls

/-- **Insertion is atomic** in every run of safe calls: an insertion that reports
ENOMEM leaves what `raxFind` finds, and `numele`. -/
theorem insert_atomic_of_safe (calls : List (Call V × Allocs))
    (hcalls : Runs.Meets exec StepSafe raxNew calls) :
    ∃ t answers, Runs.run exec raxNew calls = some (t, answers) ∧
      ∀ s data overwrite a, s.length ≤ raxNodeMaxSize → InsertSafe t s data a →
        ∃ r, raxGenericInsert t s data overwrite a = some r ∧
          (r.ret = 0 → r.errno = .enomem →
            (∀ k b, raxFind r.rax k b = raxFind t k b) ∧ r.rax.numele = t.numele) := by
  obtain ⟨t, answers, hrun, hok, hfit⟩ := run_of_safe hcalls
  refine ⟨t, answers, hrun, fun s data overwrite a hs hsafe => ?_⟩
  obtain ⟨r, hr, hrok, -, hsame⟩ := raxGenericInsert_of_safe hok hfit hs hsafe overwrite
  refine ⟨r, hr, fun _ he => ?_⟩
  obtain ⟨hlookup, hnumele⟩ := hsame he
  refine ⟨fun k b => ?_, hnumele⟩
  rw [raxFind_eq_lookup hrok.nodes.shapes, raxFind_eq_lookup hok.nodes.shapes, hlookup]

/-- With "a" stored, the insertion of "bcd" fails at its second node, and what it
linked before is taken out again. -/
theorem insert_atomic_of_safe_branch :
    ∃ t answers, Runs.run exec (raxNew : RaxTree ℕ)
        [(.raxInsert [97] (some 1), Stream'.const .same)] = some (t, answers) ∧
      ∃ r, raxGenericInsert t [98, 99, 100] (some 2) true
          (.cons .same (.cons .same (.cons .null (Stream'.const .same)))) = some r ∧
        r.ret = 0 ∧ r.errno = .enomem ∧ (∀ k b, raxFind r.rax k b = raxFind t k b) ∧
        r.rax.numele = t.numele := by
  have hcalls : Runs.Meets exec StepSafe (raxNew : RaxTree ℕ)
      [(.raxInsert [97] (some 1), Stream'.const .same)] :=
    meets_of_noFail (by simp [Call.key, raxNodeMaxSize, noFail_const])
  obtain ⟨t, answers, hrun, h⟩ := insert_atomic_of_safe _ hcalls
  obtain ⟨t', answers', hrun', hok, -⟩ := run_of_safe hcalls
  obtain rfl : t' = t := (Prod.mk.inj (Option.some.inj (hrun'.symm.trans hrun))).1
  refine ⟨t', answers, hrun, ?_⟩
  obtain ⟨r, hr, hsame⟩ := h [98, 99, 100] (some 2) true
    (.cons .same (.cons .same (.cons .null (Stream'.const .same)))) (by decide)
    ⟨fun _ _ _ _ _ => rfl, fun _ _ hst _ _ => stack_of_short hok.nodes (by decide) hst⟩
  have hret : ((Runs.run exec (raxNew : RaxTree ℕ)
        [(.raxInsert [97] (some 1), Stream'.const .same)]).bind fun x =>
      (raxGenericInsert x.1 [98, 99, 100] (some 2) true
        (.cons .same (.cons .same (.cons .null (Stream'.const .same))))).map fun r =>
          (r.ret, r.errno)) = some (0, .enomem) := by decide +kernel
  rw [hrun, Option.bind_some, hr, Option.map_some, Option.some.injEq, Prod.mk.injEq] at hret
  exact ⟨r, hr, hret.1, hret.2, hsame hret.1 hret.2⟩

/-- With "a" stored, an insertion of "abc" whose first allocation fails reports
ENOMEM, and "a" is no longer found. -/
theorem insert_loses_leaf :
    ((Runs.run exec (raxNew : RaxTree ℕ)
        [(.raxInsert [97] (some 1), Stream'.const .same)]).bind fun x =>
      (raxGenericInsert x.1 [97, 98, 99] (some 2) true
          (.cons .null (Stream'.const .same))).map fun r =>
        (r.ret, r.errno, raxFind x.1 [97] (Stream'.const .same),
          raxFind r.rax [97] (Stream'.const .same)))
      = some (0, .enomem, some (.stored (some 1)), some .raxNotFound) := by
  decide +kernel

/-- **Removal is exact** in every run of safe calls: a removal with the parents
it needs deletes its key only, and the counters stay right. -/
theorem remove_exact_of_safe (calls : List (Call V × Allocs))
    (hcalls : Runs.Meets exec StepSafe raxNew calls) :
    ∃ t answers, Runs.run exec raxNew calls = some (t, answers) ∧
      ∀ s d a b, raxFind t s b = some (.stored d) → StackSuffices t.head s a →
        ∃ r, raxRemove t s a = some ⟨r, 1, some d⟩ ∧
          (∀ k b, raxFind r k b = if k = s then some .raxNotFound else raxFind t k b) ∧
          r.numele = countP (fun l => l.iskey) r.head ∧
          r.numnodes = countP (fun _ => true) r.head := by
  obtain ⟨t, answers, hrun, hok, hfit⟩ := run_of_safe hcalls
  refine ⟨t, answers, hrun, fun s d a b hfind hstack => ?_⟩
  rw [raxFind_eq_lookup hok.nodes.shapes] at hfind
  rcases raxRemove_spec hok hfit hstack with ⟨hnone, -⟩ | ⟨d', r, hd', heq, hrem⟩
  · rw [hnone] at hfind
    cases hfind
  · rw [hd'] at hfind
    obtain rfl : d' = d := by simpa [Found.ofLookup] using hfind
    refine ⟨r, heq, fun k b => ?_, hrem.ok.numele, hrem.ok.numnodes⟩
    rw [raxFind_eq_lookup hrem.ok.nodes.shapes, raxFind_eq_lookup hok.nodes.shapes,
      hrem.updates k]
    split_ifs <;> rfl

/-- The keys "ab" and "ac", and a removal during which every allocation fails. -/
theorem remove_exact_of_safe_sibling :
    ∃ t answers, Runs.run exec (raxNew : RaxTree ℕ)
        [(.raxInsert [97, 98] (some 1), Stream'.const .same),
          (.raxInsert [97, 99] none, Stream'.const .same)] = some (t, answers) ∧
      ∃ r, raxRemove t [97, 98] (Stream'.const .null) = some ⟨r, 1, some (some 1)⟩ ∧
        (∀ k b, raxFind r k b = if k = [97, 98] then some .raxNotFound else raxFind t k b) ∧
        r.numele = countP (fun l => l.iskey) r.head ∧
        r.numnodes = countP (fun _ => true) r.head := by
  have hcalls : Runs.Meets exec StepSafe (raxNew : RaxTree ℕ)
      [(.raxInsert [97, 98] (some 1), Stream'.const .same),
        (.raxInsert [97, 99] none, Stream'.const .same)] :=
    meets_of_noFail (by simp [Call.key, raxNodeMaxSize, noFail_const])
  obtain ⟨t, answers, hrun, h⟩ := remove_exact_of_safe _ hcalls
  obtain ⟨t', answers', hrun', hok, -⟩ := run_of_safe hcalls
  obtain rfl : t' = t := (Prod.mk.inj (Option.some.inj (hrun'.symm.trans hrun))).1
  refine ⟨t', answers, hrun, h _ _ _ (Stream'.const .same) ?_
    (stackSuffices_of_short hok.nodes.shapes (by decide) _)⟩
  have hfind : ((Runs.run exec (raxNew : RaxTree ℕ)
        [(.raxInsert [97, 98] (some 1), Stream'.const .same),
          (.raxInsert [97, 99] none, Stream'.const .same)]).bind fun x =>
      raxFind x.1 [97, 98] (Stream'.const .same)) = some (.stored (some 1)) := by decide +kernel
  rwa [hrun, Option.bind_some] at hfind

/-- The keys "a", "aa" and so on up to `n` bytes. -/
def nestedCalls (n : ℕ) : List (Call ℕ × Allocs) :=
  (List.range n).map fun k =>
    (.raxInsert (List.replicate (k + 1) 97) (some k), Stream'.const .same)

/-- With 33 nested keys, the removal of the longest one pushes 33 parents.  If the
last push fails, the cleanup looks for the leaf in its grandparent. -/
theorem remove_in_wrong_parent :
    ((Runs.run exec raxNew (nestedCalls 33)).map fun x =>
      (raxFind x.1 (List.replicate 33 97) (Stream'.const .same),
        (raxRemove x.1 (List.replicate 33 97) (Stream'.const .null)).isNone))
      = some (some (.stored (some 32)), true) := by
  decide +kernel

end Rax
