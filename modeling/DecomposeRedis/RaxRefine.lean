/-
The radix tree refines a finite map.

`exec` runs one call of the interface on the tree, `spec` on a finite map from
byte strings to pointers; what the caller sees of a call is an `Answer`.  The
relation `Refines` between a tree and a map is kept by every call whose
allocations all succeed and whose key fits into a node, so the answers agree
over whole runs from `raxNew`.
-/
import DecomposeRedis.RaxRemoveSpec
import DecomposeRedis.Runs
import Mathlib.Data.Finmap

open RoseTree

namespace Rax

variable {V : Type}

/-- A call of the interface with its arguments. -/
inductive Call (V : Type) where
  | raxInsert (s : Key) (data : Option V)
  | raxTryInsert (s : Key) (data : Option V)
  | raxRemove (s : Key)
  | raxFind (s : Key)

/-- The key of a call. -/
def Call.key : Call V → Key
  | raxInsert s _ => s
  | raxTryInsert s _ => s
  | raxRemove s => s
  | raxFind s => s

/-- What the caller sees of a call: the returned integer with what was stored
through `old`, or the pointer found; and `raxSize` afterwards. -/
inductive Answer (V : Type) where
  | returned (ret : ℕ) (old : Option (Option V)) (size : ℕ)
  | found (data : Found V) (size : ℕ)
  deriving DecidableEq

/-- A call on the tree, with the answers of the allocator during the call. -/
def exec (t : RaxTree V) (c : Call V × Allocs) : Option (RaxTree V × Answer V) :=
  match c.1 with
  | .raxInsert s data =>
    (raxInsert t s data c.2).map fun r => (r.rax, .returned r.ret r.old (raxSize r.rax))
  | .raxTryInsert s data =>
    (raxTryInsert t s data c.2).map fun r => (r.rax, .returned r.ret r.old (raxSize r.rax))
  | .raxRemove s =>
    (raxRemove t s c.2).map fun r => (r.rax, .returned r.ret r.old (raxSize r.rax))
  | .raxFind s => (raxFind t s c.2).map fun f => (t, .found f (raxSize t))

/-- The finite maps the tree is an implementation of. -/
abbrev RefMap (V : Type) := Finmap fun _ : Key => Option V

/-- A call on the map. -/
def spec (m : RefMap V) (c : Call V × Allocs) : RefMap V × Answer V :=
  match c.1 with
  | .raxInsert s data =>
    let m' := m.insert s data
    match m.lookup s with
    | none => (m', .returned 1 none m'.keys.card)
    | some old => (m', .returned 0 (some old) m'.keys.card)
  | .raxTryInsert s data =>
    match m.lookup s with
    | none => (m.insert s data, .returned 1 none (m.insert s data).keys.card)
    | some old => (m, .returned 0 (some old) m.keys.card)
  | .raxRemove s =>
    match m.lookup s with
    | none => (m, .returned 0 none m.keys.card)
    | some old => (m.erase s, .returned 1 (some old) (m.erase s).keys.card)
  | .raxFind s => (m, .found (Found.ofLookup (m.lookup s)) m.keys.card)

/-- The tree is well formed and stands for the map. -/
structure Refines (t : RaxTree V) (m : RefMap V) : Prop where
  ok : RaxOk t
  fit : KeysFit t.head
  lookup : ∀ k, lookup t.head k = m.lookup k
  size : raxSize t = m.keys.card

theorem refines_raxNew : Refines (raxNew : RaxTree V) ∅ := by
  refine ⟨⟨nodesOk_new, rfl, rfl⟩, fun k d hk => ?_, fun k => ?_, rfl⟩
  · rw [raxNew, lookup_new] at hk
    cases hk
  · rw [raxNew, lookup_new, Finmap.lookup_empty]

/-! ### Sizes of finite maps -/

variable {m : RefMap V} {s : Key}

theorem card_keys_insert_of_lookup_none (h : m.lookup s = none)
    (data : Option V) : (m.insert s data).keys.card = m.keys.card + 1 := by
  have hkeys : (m.insert s data).keys = Insert.insert s m.keys := by
    ext k
    rw [Finmap.mem_keys, Finmap.mem_insert, Finset.mem_insert, Finmap.mem_keys]
  rw [hkeys, Finset.card_insert_of_notMem]
  rwa [Finmap.mem_keys, ← Finmap.lookup_eq_none]

theorem card_keys_insert_of_lookup_some {d : Option V} (h : m.lookup s = some d) (data : Option V) :
    (m.insert s data).keys.card = m.keys.card := by
  have hmem : s ∈ m := Finmap.lookup_isSome.mp (by rw [h]; rfl)
  congr 1
  ext k
  rw [Finmap.mem_keys, Finmap.mem_insert, Finmap.mem_keys]
  refine ⟨?_, .inr⟩
  rintro (rfl | hk)
  · exact hmem
  · exact hk

theorem card_keys_erase_of_lookup_some {d : Option V}
    (h : m.lookup s = some d) : (m.erase s).keys.card + 1 = m.keys.card := by
  have hmem : s ∈ m.keys := Finmap.mem_keys.mpr (Finmap.lookup_isSome.mp (by rw [h]; rfl))
  rw [Finmap.keys_erase, Finset.card_erase_add_one hmem]

/-! ### One call -/

/-- The relation after a change at one key. -/
theorem Refines.updates {t r : RaxTree V} {m' : RefMap V} (h : Refines t m) (hok : RaxOk r)
    (hs : s.length ≤ raxNodeMaxSize) {d : Option (Option V)} (hup : Updates t.head r.head s d)
    (hm : ∀ k, m'.lookup k = if k = s then d else m.lookup k) (hsize : raxSize r = m'.keys.card) :
    Refines r m' := by
  refine ⟨hok, h.fit.updates hs hup, fun k => ?_, hsize⟩
  rw [hup k, hm k, h.lookup]

theorem lookup_insert_eq (m : RefMap V) (s : Key) (data : Option V) (k : Key) :
    (m.insert s data).lookup k = if k = s then some data else m.lookup k := by
  split_ifs with h
  · rw [h, Finmap.lookup_insert]
  · exact Finmap.lookup_insert_of_ne m h

theorem lookup_erase_eq (m : RefMap V) (s k : Key) :
    (m.erase s).lookup k = if k = s then none else m.lookup k := by
  split_ifs with h
  · rw [h, Finmap.lookup_erase]
  · exact Finmap.lookup_erase_ne h

section Step

variable {t : RaxTree V} {m : RefMap V} {s : Key} {a : Allocs}

/-- Without a failure there are two things an insertion can do. -/
theorem raxGenericInsert_of_noFail (ht : RaxOk t) (ha : NoFail a) (s : Key) (data : Option V)
    (overwrite : Bool) :
    (∃ d r, lookup t.head s = some d ∧ Stored t s data overwrite r ∧
      raxGenericInsert t s data overwrite a = some ⟨r, 0, some d, .zero⟩) ∨
    ∃ r, lookup t.head s = none ∧ Inserted t s data r ∧
      raxGenericInsert t s data overwrite a = some ⟨r, 1, none, .untouched⟩ := by
  obtain ⟨res, hres⟩ : ∃ res, raxGenericInsert t s data overwrite a = res := ⟨_, rfl⟩
  have hcases := raxGenericInsert_cases ht.nodes s data overwrite a
  generalize oomState t s data a = exit at hcases
  rw [hres] at hcases ⊢
  cases hcases with
  | present hlookup hstored => exact .inl ⟨_, _, hlookup, hstored, rfl⟩
  | inserted hlookup hins => exact .inr ⟨_, hlookup, hins, rfl⟩
  | unchanged hfail => exact absurd ha hfail
  | oom _ _ hfail _ => exact absurd hfail ha.not_failed

theorem exec_refines (h : Refines t m) (c : Call V × Allocs) (ha : NoFail c.2)
    (hs : c.1.key.length ≤ raxNodeMaxSize) :
    ∃ t', exec t c = some (t', (spec m c).2) ∧ Refines t' (spec m c).1 := by
  obtain ⟨c, a⟩ := c
  cases c with
  | raxInsert s data =>
    simp only [exec, spec, raxInsert]
    rcases raxGenericInsert_of_noFail h.ok ha s data true with
      ⟨d, r, hd, hr, heq⟩ | ⟨r, hd, hr, heq⟩
    · rw [h.lookup] at hd
      have hsize : raxSize r = (m.insert s data).keys.card := by
        rw [card_keys_insert_of_lookup_some hd, ← h.size]
        exact hr.numele
      rw [heq, hd, ← hsize]
      exact ⟨r, rfl, h.updates (hr.raxOk h.ok) hs hr.updates (lookup_insert_eq m s data) hsize⟩
    · rw [h.lookup] at hd
      have hsize : raxSize r = (m.insert s data).keys.card := by
        rw [card_keys_insert_of_lookup_none hd, ← h.size]
        exact hr.numele
      rw [heq, hd, ← hsize]
      exact ⟨r, rfl, h.updates (hr.raxOk h.ok) hs hr.updates (lookup_insert_eq m s data) hsize⟩
  | raxTryInsert s data =>
    simp only [exec, spec, raxTryInsert]
    rcases raxGenericInsert_of_noFail h.ok ha s data false with
      ⟨d, r, hd, hr, heq⟩ | ⟨r, hd, hr, heq⟩
    · have hup := hr.updates
      rw [if_neg (by simp)] at hup
      rw [h.lookup] at hd
      have hsize : raxSize r = m.keys.card := by
        rw [← h.size]
        exact hr.numele
      rw [heq, hd, ← hsize]
      refine ⟨r, rfl, h.updates (hr.raxOk h.ok) hs hup (fun k => ?_) hsize⟩
      rw [h.lookup]
      split_ifs with hk
      · rw [hk]
        rfl
      · rfl
    · rw [h.lookup] at hd
      have hsize : raxSize r = (m.insert s data).keys.card := by
        rw [card_keys_insert_of_lookup_none hd, ← h.size]
        exact hr.numele
      rw [heq, hd, ← hsize]
      exact ⟨r, rfl, h.updates (hr.raxOk h.ok) hs hr.updates (lookup_insert_eq m s data) hsize⟩
  | raxRemove s =>
    simp only [exec, spec]
    rcases raxRemove_spec h.ok h.fit (ha.stackSuffices h.ok.nodes.shapes (s := s)) with
      ⟨hd, heq⟩ | ⟨d, r, hd, heq, hr⟩
    · rw [h.lookup] at hd
      rw [heq, hd, ← h.size]
      exact ⟨t, rfl, h⟩
    · rw [h.lookup] at hd
      have hsize : raxSize r = (m.erase s).keys.card := by
        have h1 := card_keys_erase_of_lookup_some hd
        have h2 := hr.numele
        have h3 := h.size
        rw [raxSize] at h3 ⊢
        omega
      rw [heq, hd, ← hsize]
      exact ⟨r, rfl, h.updates hr.ok hs hr.updates (lookup_erase_eq m s) hsize⟩
  | raxFind s =>
    simp only [exec, spec]
    rw [raxFind_eq_lookup h.ok.nodes.shapes, h.lookup, ← h.size]
    exact ⟨t, rfl, h⟩

end Step

/-! ### Runs -/

/-- What a call needs: no failed allocation, and a key that fits into a node. -/
def CallOk (c : Call V × Allocs) : Prop := NoFail c.2 ∧ c.1.key.length ≤ raxNodeMaxSize

/-- After every run the tree still refines the map, and the answers agree. -/
theorem run_refines {t : RaxTree V} (h : Refines t m)
    {calls : List (Call V × Allocs)} (hcalls : ∀ c ∈ calls, CallOk c) :
    ∃ t', Runs.run exec t calls = some (t', (Runs.specRun spec m calls).2) ∧
      Refines t' (Runs.specRun spec m calls).1 :=
  Runs.run_simulates (fun _ _ c h hc => exec_refines h c hc.1 hc.2) h
    (Runs.meets_of_forall t hcalls)

/-- **The radix tree refines a finite map.**  Every run from `raxNew` without
failed allocations, with keys that fit into a node, is defined and gives the
answers of the map. -/
theorem answers_eq_of_raxNew (calls : List (Call V × Allocs)) (hcalls : ∀ c ∈ calls, CallOk c) :
    ∃ t, Runs.run exec raxNew calls = some (t, (Runs.specRun spec ∅ calls).2) := by
  obtain ⟨t, ht, -⟩ := run_refines refines_raxNew hcalls
  exact ⟨t, ht⟩

/-- The keys "", "a" and "ab", one of them with a NULL value, and a removal that
leaves the other two. -/
theorem answers_eq_of_raxNew_nested :
    ∃ t : RaxTree ℕ, Runs.run exec raxNew
      [(.raxInsert [97, 98] (some 1), Stream'.const .same),
        (.raxInsert [97] none, Stream'.const .moved),
          (.raxTryInsert [] (some 2), Stream'.const .same),
        (.raxTryInsert [97] (some 3), Stream'.const .same), (.raxRemove [97], Stream'.const .same),
        (.raxFind [97], Stream'.const .same), (.raxFind [97, 98], Stream'.const .same)]
      = some (t, [.returned 1 none 1, .returned 1 none 2, .returned 1 none 3,
        .returned 0 (some none) 3, .returned 1 (some none) 2, .found .raxNotFound 2,
        .found (.stored (some 1)) 2]) := by
  refine answers_eq_of_raxNew _ fun c hc => ?_
  simp only [List.mem_cons, List.not_mem_nil, or_false] at hc
  rcases hc with rfl | rfl | rfl | rfl | rfl | rfl | rfl
  all_goals exact ⟨noFail_const (by decide), by decide⟩

end Rax
