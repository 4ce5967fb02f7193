/-
Doubly linked lists in a memory.

`Linked links head l` says that the nodes from `head` on are those of `l`, each with the
addresses of the node before it and of the node after it.  All edits are cases of
`Linked.splice`, which exchanges the nodes between two parts of a list: `Linked.insert` and
`Linked.push` put a node in, `Linked.unlink` takes one out, `Linked.join` appends a list.
They are stated by the memory that results, so that they can be used with any way to
write it.
-/
import Mathlib.Data.List.Nodup
import Mathlib.Data.Finset.Card
import Mathlib.Order.Interval.Finset.Nat

namespace LinkedList

/-- The addresses before and after each node in memory. -/
abbrev Links := ℕ → Option (Option ℕ × Option ℕ)

/-- The list from `head` on is `l`. -/
structure Linked (links : Links) (head : Option ℕ) (l : List ℕ) : Prop where
  head_eq : head = l.head?
  nodup : l.Nodup
  node : ∀ front a back, l = front ++ a :: back → links a = some (front.getLast?, back.head?)

variable {links links' : Links} {head : Option ℕ} {l front back : List ℕ} {a : ℕ}

theorem linked_nil : Linked links none [] := ⟨rfl, .nil, fun front a back h => by simp at h⟩

/-- Only the links of the nodes matter. -/
theorem Linked.congr (h : Linked links head l) (hlinks : ∀ a ∈ l, links' a = links a) :
    Linked links' head l := by
  refine ⟨h.head_eq, h.nodup, fun front a back hsplit => ?_⟩
  rw [hlinks a (by simp [hsplit])]
  exact h.node front a back hsplit

/-- Where a node is in two lists put together. -/
theorem append_cons_cases {f r : List ℕ} {b : ℕ} (h : front ++ back = f ++ b :: r) :
    (∃ r', front = f ++ b :: r' ∧ r = r' ++ back) ∨ ∃ f', f = front ++ f' ∧
      back = f' ++ b :: r := by
  rcases List.append_eq_append_iff.mp h with ⟨as, hf, hb⟩ | ⟨bs, hf, hb⟩
  · exact Or.inr ⟨as, hf, hb⟩
  · rcases bs with _ | ⟨c, bs⟩
    · exact Or.inr ⟨[], by simpa using hf.symm, by simpa using hb.symm⟩
    · obtain ⟨rfl, rfl⟩ := List.cons_eq_cons.mp hb
      exact Or.inl ⟨bs, hf, rfl⟩

theorem getLast?_ne_of_nodup {f r : List ℕ} {b d : ℕ} (h : (f ++ b :: d :: r).Nodup) :
    (f ++ b :: d :: r).getLast? ≠ some b := by
  intro heq
  rw [show f ++ b :: d :: r = (f ++ [b]) ++ d :: r by simp,
    List.getLast?_append_of_ne_nil _ (by simp)] at heq
  have hb : b ∈ d :: r := List.mem_of_getLast? heq
  exact (List.nodup_cons.mp (List.nodup_append.mp h).2.1).1 hb

theorem head?_ne_of_nodup {f r : List ℕ} {b c : ℕ} (h : (c :: f ++ b :: r).Nodup) :
    (c :: f ++ b :: r).head? ≠ some b := by
  intro heq
  obtain rfl : c = b := Option.some.inj heq
  simp at h

/-- The nodes between two parts of a list are exchanged for others. -/
theorem Linked.splice {mid mid' : List ℕ} (h : Linked links head (front ++ (mid ++ back)))
    (hnodup : (front ++ (mid' ++ back)).Nodup)
    (hmid : ∀ f b r, mid' = f ++ b :: r → links' b = some ((front ++ f).getLast?,
      (r ++ back).head?))
    (hprev : ∀ b x, front.getLast? = some b → links b = some x →
      links' b = some (x.1, (mid' ++ back).head?))
    (hnext : ∀ b x, back.head? = some b → links b = some x →
      links' b = some ((front ++ mid').getLast?, x.2))
    (hothers : ∀ b ∈ front ++ back, front.getLast? ≠ some b → back.head? ≠ some b →
      links' b = links b) :
    Linked links' (front ++ (mid' ++ back)).head? (front ++ (mid' ++ back)) := by
  have hfront : front.Nodup := (List.nodup_append.mp hnodup).1
  have hback : back.Nodup := (List.nodup_append.mp (List.nodup_append.mp hnodup).2.1).2.1
  have hdisjoint : ∀ b ∈ front, b ∉ back := fun b hf hb =>
    List.disjoint_of_nodup_append hnodup hf (List.mem_append_right _ hb)
  refine ⟨rfl, hnodup, fun f b r hsplit => ?_⟩
  rcases append_cons_cases hsplit with ⟨r', rfl, rfl⟩ | ⟨f', rfl, hrest⟩
  · -- in the first part: its last node has another one behind it
    have hlinks := h.node f b (r' ++ (mid ++ back)) (by simp)
    rcases r' with _ | ⟨d, r'⟩
    · exact hprev b _ (by simp) hlinks
    · rw [hothers b (by simp) (getLast?_ne_of_nodup hfront) ?_, hlinks]
      · rfl
      · exact fun heq => hdisjoint b (by simp) (List.mem_of_head? heq)
  rcases append_cons_cases hrest with ⟨r', rfl, rfl⟩ | ⟨f'', rfl, rfl⟩
  · exact hmid f' b r' rfl
  · -- in the last part: its first node has another one before it
    have hlinks := h.node (front ++ (mid ++ f'')) b r (by simp)
    rcases f'' with _ | ⟨c, f''⟩
    · have hnext := hnext b _ rfl hlinks
      simpa using hnext
    · rw [hothers b (by simp) ?_ (head?_ne_of_nodup hback), hlinks]
      · simp [List.getLast?_append, List.getLast?_cons]
      · exact fun heq => hdisjoint b (List.mem_of_getLast? heq) (by simp)

/-- A node is put in. -/
theorem Linked.insert (h : Linked links head (front ++ back)) (ha : a ∉ front ++ back)
    (hself : links' a = some (front.getLast?, back.head?))
    (hprev : ∀ b x, front.getLast? = some b → links b = some x → links' b = some (x.1, some a))
    (hnext : ∀ b x, back.head? = some b → links b = some x → links' b = some (some a, x.2))
    (hothers : ∀ b ∈ front ++ back, front.getLast? ≠ some b → back.head? ≠ some b →
      links' b = links b) :
    Linked links' (front ++ a :: back).head? (front ++ a :: back) := by
  have hnodup : (front ++ a :: back).Nodup :=
    List.nodup_middle.mpr (List.nodup_cons.mpr ⟨ha, h.nodup⟩)
  have hsplice := @Linked.splice links links' head front back [] [a] h hnodup
  refine hsplice ?_ hprev (fun b x hb hx => ?_) hothers
  · intro f b r hsplit
    obtain ⟨rfl, rfl, rfl⟩ : f = [] ∧ a = b ∧ r = [] := by
      rcases f with _ | ⟨c, f⟩ <;> simp_all
    simpa using hself
  · rw [hnext b x hb hx]
    simp

/-- A node is put before the others. -/
theorem Linked.push (h : Linked links head l) (ha : a ∉ l) (hself : links' a = some (none, head))
    (hhead : ∀ b x, head = some b → links b = some x → links' b = some (some a, x.2))
    (hothers : ∀ b ∈ l, head ≠ some b → links' b = links b) : Linked links' (some a) (a :: l) := by
  rw [h.head_eq] at hself hhead hothers
  exact @Linked.insert links links' head [] l a h ha hself (fun _ _ hb => nomatch hb) hhead
    fun b hb _ => hothers b hb

/-- A node is taken out. -/
theorem Linked.unlink (h : Linked links head (front ++ a :: back))
    (hprev : ∀ b x, front.getLast? = some b → links b = some x → links' b = some (x.1, back.head?))
    (hnext : ∀ b x, back.head? = some b → links b = some x → links' b = some (front.getLast?, x.2))
    (hothers : ∀ b ∈ front ++ back, front.getLast? ≠ some b → back.head? ≠ some b →
      links' b = links b) :
    Linked links' (front ++ back).head? (front ++ back) := by
  have hnodup : (front ++ back).Nodup := (List.nodup_cons.mp (List.nodup_middle.mp h.nodup)).2
  have hsplice := @Linked.splice links links' head front back [a] [] h hnodup
  refine hsplice (fun f b r hsplit => by simp at hsplit) hprev (fun b x hb hx => ?_) hothers
  rw [hnext b x hb hx, List.append_nil]

/-- A list is put behind another one. -/
theorem Linked.join {head₂ : Option ℕ} {l₂ : List ℕ} (h : Linked links head l)
    (h₂ : Linked links head₂ l₂) (hdisjoint : l.Disjoint l₂)
    (hlast : ∀ b x, l.getLast? = some b → links b = some x → links' b = some (x.1, l₂.head?))
    (hhead : ∀ b x, l₂.head? = some b → links b = some x → links' b = some (l.getLast?, x.2))
    (hothers : ∀ b ∈ l ++ l₂, l.getLast? ≠ some b → l₂.head? ≠ some b → links' b = links b) :
    Linked links' (l ++ l₂).head? (l ++ l₂) := by
  have hnodup : (l ++ (l₂ ++ [])).Nodup := by
    rw [List.append_nil]
    exact h.nodup.append h₂.nodup hdisjoint
  have hsplice := @Linked.splice links links' head l [] [] l₂ (by simpa using h) hnodup
  rw [List.append_nil] at hsplice
  refine hsplice (fun f b r hsplit => ?_) hlast (fun b x hb => nomatch hb) fun b hb hne _ => ?_
  · subst hsplit
    have hlinks := h₂.node f b r rfl
    rcases f with _ | ⟨c, f⟩
    · rw [hhead b _ rfl hlinks]
      simp
    · rw [hothers b (by simp) ?_ (head?_ne_of_nodup h₂.nodup), hlinks]
      · simp [List.getLast?_append, List.getLast?_cons]
      · exact fun heq => hdisjoint (List.mem_of_getLast? heq) (by simp)
  · rw [List.append_nil] at hb
    exact hothers b (List.mem_append_left _ hb) hne fun heq => hdisjoint hb (List.mem_of_head? heq)

/-- A list of different addresses below a bound. -/
theorem Linked.length_le (h : Linked links head l) {n : ℕ} (hn : ∀ a ∈ l, a < n) :
    l.length ≤ n := by
  have hcard := Finset.card_le_card (s := l.toFinset) (t := Finset.range n) fun a ha =>
    Finset.mem_range.mpr (hn a (List.mem_toFinset.mp ha))
  rwa [List.toFinset_card_of_nodup h.nodup, Finset.card_range] at hcard

end LinkedList
