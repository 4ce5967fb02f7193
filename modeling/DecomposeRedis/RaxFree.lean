/-
The representation invariant over whole runs, and freeing the tree
(`raxRecursiveFree`, `raxFreeWithCallback` of rax.c).

Freeing counts `numnodes` down once for each node and asserts that nothing is
left.  The counter is an integer here, so that a count that went wrong in
either direction fails the assertion.
-/
import DecomposeRedis.RaxRefine

open RoseTree

namespace Rax

variable {V : Type}

mutual
/-- `raxRecursiveFree`: the pointers passed to the callback, if there is one, in
the order of the calls, and the node counter.  There is no result if the header
of a node does not fit the number of its children. -/
def raxRecursiveFree (callback : Bool) : RaxNode V → ℤ → Option (List (Option V) × ℤ)
  | node l cs, numnodes =>
    if cs.length = if l.iscompr then 1 else l.size then
      (freeChildren callback cs numnodes).map fun x =>
        (x.1 ++ if callback && l.iskey && !l.isnull then [raxGetData l] else [], x.2 - 1)
    else none
/-- The loop over the children, which goes from the last one to the first. -/
def freeChildren (callback : Bool) : List (RaxNode V) → ℤ → Option (List (Option V) × ℤ)
  | [], numnodes => some ([], numnodes)
  | c :: cs, numnodes =>
    (freeChildren callback cs numnodes).bind fun x =>
      (raxRecursiveFree callback c x.2).map fun y => (x.1 ++ y.1, y.2)
end

/-- `raxFreeWithCallback`, with the assertion that all nodes were counted. -/
def raxFreeWithCallback (t : RaxTree V) (callback : Bool) : Option (List (Option V)) :=
  (raxRecursiveFree callback t.head t.numnodes).bind fun x => if x.2 = 0 then some x.1 else none

/-- Each node is counted once. -/
theorem raxRecursiveFree_counter {n : RaxNode V} (hn : ShapesOk n) (callback : Bool)
    (numnodes : ℤ) :
    ∃ vs, raxRecursiveFree callback n numnodes = some (vs, numnodes - nodeCount n) := by
  induction n using RoseTree.induct generalizing numnodes with
  | node l cs ih =>
    obtain ⟨hshape, hcs⟩ := shapesOk_node.mp hn
    have hlen : cs.length = if l.iscompr then 1 else l.size := by
      cases hc : l.iscompr with
      | true => exact (hshape.compr hc).2
      | false => exact hshape.plain hc
    -- The loop frees the children one by one.
    have hloop : ∀ ds : List (RaxNode V), (∀ d ∈ ds, d ∈ cs) →
        ∃ vs, freeChildren callback ds numnodes
          = some (vs, numnodes - (ds.map nodeCount).sum) := by
      intro ds hds
      induction ds with
      | nil => exact ⟨[], by simp [freeChildren]⟩
      | cons d ds ihds =>
        obtain ⟨vs, hvs⟩ := ihds fun e he => hds e (List.mem_cons_of_mem _ he)
        have hd := hds d (by simp)
        obtain ⟨ws, hws⟩ := ih d hd (hcs d hd) (numnodes - (ds.map nodeCount).sum)
        refine ⟨vs ++ ws, ?_⟩
        rw [freeChildren, hvs, Option.bind_some, hws, Option.map_some, List.map_cons,
          List.sum_cons]
        congr 2
        push_cast
        ring
    obtain ⟨vs, hvs⟩ := hloop cs fun d hd => hd
    have hcount : numnodes - ((cs.map nodeCount).sum : ℕ) - 1
        = numnodes - nodeCount (node l cs) := by
      rw [nodeCount_node]
      push_cast
      ring
    exact ⟨_, by rw [raxRecursiveFree, if_pos hlen, hvs, Option.map_some, hcount]⟩

/-- The assertion of `raxFreeWithCallback` holds if `numnodes` is right. -/
theorem raxFreeWithCallback_isSome {t : RaxTree V} (ht : RaxOk t) (callback : Bool) :
    (raxFreeWithCallback t callback).isSome = true := by
  obtain ⟨vs, hvs⟩ := raxRecursiveFree_counter ht.nodes.shapes callback t.numnodes
  rw [raxFreeWithCallback, hvs, Option.bind_some, ht.numnodes]
  simp

/-- **The representation invariant.**  It holds of every tree reached from
`raxNew` without failed allocations, with keys that fit into a node. -/
theorem representation_of_raxNew (calls : List (Call V × Allocs))
    (hcalls : ∀ c ∈ calls, CallOk c) :
    ∃ t answers, Runs.run exec raxNew calls = some (t, answers) ∧
      (∀ p n, t.head.nodeAt p = some n →
        (n.label.iscompr = false → n.label.data.Pairwise (· < ·)) ∧
        (n.label.iscompr = true → 2 ≤ n.label.size ∧ n.children.length = 1) ∧
        (p ≠ [] → n.children = [] → n.label.iskey = true)) ∧
      t.numele = countP (fun l => l.iskey) t.head ∧
      t.numnodes = countP (fun _ => true) t.head ∧
      ∀ callback, (raxFreeWithCallback t callback).isSome = true := by
  obtain ⟨t, hrun, ht⟩ := run_refines refines_raxNew hcalls
  have hok := ht.ok
  refine ⟨t, _, hrun, fun p n hn => ⟨?_, ?_, fun hp hcs => ?_⟩, hok.numele, hok.numnodes,
    raxFreeWithCallback_isSome hok⟩
  · exact (hok.nodes.shapes.shapeAt hn).sorted
  · exact (hok.nodes.shapes.shapeAt hn).compr
  · obtain ⟨q, i, rfl⟩ := (List.eq_nil_or_concat' p).resolve_left hp
    refine hok.nodes.leafAt hn ?_
    have hshape := hok.nodes.shapes.shapeAt hn
    rw [hcs] at hshape
    cases hc : n.label.iscompr with
    | true => exact absurd (hshape.compr hc).2 (by simp)
    | false => exact List.length_eq_zero_iff.mp (hshape.plain hc).symm

/-- Splitting "abcd" and merging it again. -/
theorem representation_of_raxNew_split :
    ∃ (t : RaxTree ℕ) (answers : List (Answer ℕ)), Runs.run exec raxNew
        [(.raxInsert [97, 98, 99, 100] (some 1), Stream'.const .same),
          (.raxInsert [97, 98, 120] none, Stream'.const .moved),
          (.raxRemove [97, 98, 120], Stream'.const .same)] = some (t, answers) ∧
      (∀ p n, t.head.nodeAt p = some n →
        (n.label.iscompr = false → n.label.data.Pairwise (· < ·)) ∧
        (n.label.iscompr = true → 2 ≤ n.label.size ∧ n.children.length = 1) ∧
        (p ≠ [] → n.children = [] → n.label.iskey = true)) ∧
      t.numele = countP (fun l => l.iskey) t.head ∧
      t.numnodes = countP (fun _ => true) t.head ∧
      ∀ callback, (raxFreeWithCallback t callback).isSome = true := by
  refine representation_of_raxNew _ fun c hc => ?_
  simp only [List.mem_cons, List.not_mem_nil, or_false] at hc
  rcases hc with rfl | rfl | rfl
  all_goals exact ⟨noFail_const (by decide), by decide⟩

end Rax
