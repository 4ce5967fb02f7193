/-
The lists of adlist.c refine sequences.

A sequence holds the nodes of a list in order, each with its address and its value, and
`spec` says what a call does to the sequences.  `Refines m q` says that the lists in the
memory `m` are the sequences `q`: each list is doubly linked (`Stores`), and no two lists
share a node.

* `Relinked` — two writes link two parts of a list anew; with them `Stores.insert`,
  `Stores.unlink` and `Stores.join` make the new sequence, and so does `Stores.rotate`;
* `Stores.next` — where an iterator goes on, in both directions at once;
* `Edits` — what a call does to one list and leaves alone elsewhere, with `Refines.edit`;
* `lists_refine_sequences` — a run of calls that its callers may make is defined, answers
  as the sequences do, and leaves lists that read as the sequences in both directions.
-/
import DecomposeRedis.LinkedList
import DecomposeRedis.ListMemory
import DecomposeRedis.Runs

namespace ListMemory

open Function LinkedList

variable {α : Type} {f : ListNode α → ListNode α} {x : ℕ × α}

/-! ### Sequences -/

/-- A list as a sequence of nodes. -/
structure Sequence (α : Type) where
  dup : Option (α → Option α)
  nodes : List (ℕ × α)

abbrev Sequences (α : Type) := ℕ → Option (Sequence α)

def Sequences.change (q : Sequences α) (l : ℕ) (f : List (ℕ × α) → List (ℕ × α)) : Sequences α :=
  update q l ((q l).map fun s => { s with nodes := f s.nodes })

/-- The nodes of a list. -/
def Sequences.nodes (q : Sequences α) (l : ℕ) : List (ℕ × α) := ((q l).map Sequence.nodes).getD []

/-- A node before or after another one. -/
def insertBeside (old : ℕ) (x : ℕ × α) (after : Bool) : List (ℕ × α) → List (ℕ × α)
  | [] => []
  | y :: ys =>
    if y.1 = old then (if after then y :: x :: ys else x :: y :: ys)
    else y :: insertBeside old x after ys

/-- The last node first. -/
def rotated (xs : List (ℕ × α)) : List (ℕ × α) := xs.getLast?.toList ++ xs.dropLast

/-- The nodes in the order in which an iterator meets them. -/
def Direction.orient : Direction → List (ℕ × α) → List (ℕ × α)
  | .startHead, xs => xs
  | .startTail, xs => xs.reverse

/-- The node at an index, from the tail if it is negative. -/
def atIndex (xs : List (ℕ × α)) (index : ℤ) : Option ℕ :=
  if index < 0 then (xs.reverse.map Prod.fst)[(-index - 1).toNat]?
  else (xs.map Prod.fst)[index.toNat]?

/-- The values of a copy. -/
def dupValues (dup : Option (α → Option α)) (xs : List (ℕ × α)) : Option (List α) :=
  xs.mapM fun x => dupValue dup x.2

/-- What a call does to the sequences, and what it returns. -/
def spec (q : Sequences α) : Call α → Sequences α × Answer α
  | .listCreate l => (update q l (some ⟨none, []⟩), .done)
  | .listSetDupMethod l dup => (update q l ((q l).map fun s => { s with dup := dup }), .done)
  | .listAddNodeHead l node value => (q.change l ((node, value) :: ·), .done)
  | .listAddNodeTail l node value => (q.change l (· ++ [(node, value)]), .done)
  | .listInsertNode l oldNode node value after =>
    (q.change l (insertBeside oldNode (node, value) after), .done)
  | .listDelNode l node => (q.change l (·.filter (·.1 ≠ node)), .done)
  | .listRotate l => (q.change l rotated, .done)
  | .listJoin l o => ((q.change l (· ++ q.nodes o)).change o fun _ => [], .done)
  | .listDup orig copy addrs =>
    match (q orig).bind fun s => (dupValues s.dup s.nodes).map fun vs =>
      Sequence.mk s.dup (addrs.zip vs) with
    | none => (q, .copied false)
    | some s => (update q copy (some s), .copied true)
  | .listEmpty l => (q.change l fun _ => [], .done)
  | .listRelease l => (update q l none, .done)
  | .listIndex l index => (q, .node (atIndex (q.nodes l) index))
  | .iterate l direction deletes =>
    (q.change l (·.filter fun x => !deletes x.1), .visited (direction.orient (q.nodes l)))

/-! ### Lists in memory -/

/-- The addresses of the nodes. -/
def keys (xs : List (ℕ × α)) : List ℕ := xs.map Prod.fst

@[simp] theorem keys_nil : keys ([] : List (ℕ × α)) = [] := rfl

@[simp] theorem keys_cons (x : ℕ × α) (xs : List (ℕ × α)) : keys (x :: xs) = x.1 :: keys xs := rfl

@[simp] theorem keys_append (xs ys : List (ℕ × α)) : keys (xs ++ ys) = keys xs ++ keys ys :=
  List.map_append

@[simp] theorem keys_reverse (xs : List (ℕ × α)) : keys xs.reverse = (keys xs).reverse :=
  List.map_reverse

theorem mem_keys {xs : List (ℕ × α)} (h : x ∈ xs) : x.1 ∈ keys xs := List.mem_map_of_mem h

def Memory.links (m : Memory α) : Links := fun a => (m.node a).map fun x => (x.prev, x.next)

def Memory.value (m : Memory α) (a : ℕ) : Option α := (m.node a).map ListNode.value

/-- A list record with the nodes of a sequence. -/
structure Stores (m : Memory α) (r : ListRecord α) (xs : List (ℕ × α)) : Prop where
  linked : Linked m.links r.head (keys xs)
  tail : r.tail = (keys xs).getLast?
  len : r.len = xs.length
  value : ∀ x ∈ xs, m.value x.1 = some x.2

/-- The lists in memory are the sequences. -/
structure Refines (m : Memory α) (q : Sequences α) : Prop where
  absent : ∀ l, m.list l = none → q l = none
  stores : ∀ l r, m.list l = some r → ∃ xs, q l = some ⟨r.dup, xs⟩ ∧ Stores m r xs
  apart : ∀ l l' s s', l ≠ l' → q l = some s → q l' = some s' →
    (keys s.nodes).Disjoint (keys s'.nodes)

variable {m m₁ m₂ m' : Memory α} {r r' : ListRecord α} {xs ys front back : List (ℕ × α)}
  {q : Sequences α} {l a b : ℕ} {p c : Option ℕ} {v w : α} {dup : Option (α → Option α)}
  {addrs : List ℕ}

theorem refines_empty : Refines (Memory.empty : Memory α) fun _ => none :=
  ⟨fun _ _ => rfl, (fun _ _ h => nomatch h), fun _ _ _ _ _ h => nomatch h⟩

theorem stores_nil (m : Memory α) (dup : Option (α → Option α)) :
    Stores m ⟨none, none, dup, 0⟩ [] :=
  ⟨linked_nil, rfl, rfl, by rintro _ ⟨⟩⟩

theorem Stores.isSome (h : Stores m r xs) (ha : a ∈ keys xs) : (m.node a).isSome := by
  obtain ⟨f, b, hsplit⟩ := List.append_of_mem ha
  have hlinks := h.linked.node f a b hsplit
  obtain ⟨x, hx, -⟩ := Option.map_eq_some_iff.mp hlinks
  simp [hx]

theorem Stores.not_mem (h : Stores m r xs) (ha : m.node a = none) : a ∉ keys xs := by
  intro hmem
  have hsome := h.isSome hmem
  simp [ha] at hsome

/-- Only the nodes of the list matter. -/
theorem Stores.congr (h : Stores m r xs) (hnode : ∀ a ∈ keys xs, m'.node a = m.node a) :
    Stores m' r xs := by
  refine ⟨h.linked.congr fun a ha => ?_, h.tail, h.len, fun x hx => ?_⟩
  · rw [Memory.links, Memory.links, hnode a ha]
  · rw [Memory.value, hnode x.1 (mem_keys hx)]
    exact h.value x hx

/-! ### Writes -/

/-- A node was written through a pointer that may be null. -/
structure Wrote (m : Memory α) (p : Option ℕ) (f : ListNode α → ListNode α)
    (m' : Memory α) : Prop where
  list : m'.list = m.list
  node : ∀ b, m'.node b = if p = some b then (m.node b).map f else m.node b

theorem Wrote.refl (m : Memory α) (f : ListNode α → ListNode α) : Wrote m none f m :=
  ⟨rfl, fun _ => rfl⟩

theorem modify_wrote (f : ListNode α → ListNode α) (h : (m.node a).isSome) :
    ∃ m', m.modify (some a) f = some m' ∧ Wrote m (some a) f m' := by
  obtain ⟨x, hx⟩ := Option.isSome_iff_exists.mp h
  refine ⟨m.setNode a (f x), by simp [Memory.modify, hx], rfl, fun b => ?_⟩
  by_cases hb : a = b
  · subst hb
    simp [Memory.setNode, hx]
  · simp [Memory.setNode, update_of_ne (Ne.symm hb), hb]

theorem modifyIf_wrote (f : ListNode α → ListNode α) (h : ∀ a, p = some a → (m.node a).isSome) :
    ∃ m', m.modifyIf p f = some m' ∧ Wrote m p f m' := by
  cases p with
  | none => exact ⟨m, rfl, .refl m f⟩
  | some a => exact modify_wrote f (h a rfl)

theorem Wrote.isSome (h : Wrote m p f m') (hb : (m.node b).isSome) :
    (m'.node b).isSome := by
  rw [h.node]
  split <;> simp [hb]

theorem Wrote.value (h : Wrote m p f m') (hf : ∀ x, (f x).value = x.value) (b : ℕ) :
    m'.value b = m.value b := by
  rw [Memory.value, h.node]
  split
  · rw [Option.map_map]
    exact congrArg (Option.map · _) (funext hf)
  · rfl

theorem Wrote.links {g : Option ℕ × Option ℕ → Option ℕ × Option ℕ}
    (h : Wrote m p f m') (hf : ∀ x, ((f x).prev, (f x).next) = g (x.prev, x.next)) (b : ℕ) :
    m'.links b = if p = some b then (m.links b).map g else m.links b := by
  rw [Memory.links, h.node]
  split
  · rw [Memory.links, Option.map_map, Option.map_map]
    exact congrArg (Option.map · _) (funext hf)
  · rfl

theorem Wrote.links_setNext (h : Wrote m p (.setNext c) m') :
    ∀ b, m'.links b = if p = some b then (m.links b).map fun x => (x.1, c) else m.links b :=
  h.links fun _ => rfl

theorem Wrote.links_setPrev (h : Wrote m p (.setPrev c) m') :
    ∀ b, m'.links b = if p = some b then (m.links b).map fun x => (c, x.2) else m.links b :=
  h.links fun _ => rfl

@[simp] theorem setNode_node (m : Memory α) (a : ℕ) (x : ListNode α) :
    (m.setNode a x).node = update m.node a (some x) := rfl

@[simp] theorem freeNode_node (m : Memory α)
    (a : ℕ) : (m.freeNode a).node = update m.node a none := rfl

theorem links_setNode (m : Memory α) (a : ℕ) (x : ListNode α) (b : ℕ) :
    (m.setNode a x).links b = if b = a then some (x.prev, x.next) else m.links b := by
  rw [Memory.links, setNode_node, update_apply]
  split <;> rfl

theorem value_setNode (m : Memory α) (a : ℕ) (x : ListNode α) (b : ℕ) :
    (m.setNode a x).value b = if b = a then some x.value else m.value b := by
  rw [Memory.value, setNode_node, update_apply]
  split <;> rfl

/-- What is not a node of the list before or after stays. -/
def Untouched (m m' : Memory α) (xs ys : List (ℕ × α)) : Prop :=
  ∀ b, b ∉ keys xs → b ∉ keys ys → m'.node b = m.node b

/-- Two parts of a list are linked anew: `next` is written behind the first part, and `prev`
before the second one. -/
structure Relinked (m m' : Memory α) (front back : List (ℕ × α)) (next prev : Option ℕ) : Prop where
  list : m'.list = m.list
  last : ∀ b x, (keys front).getLast? = some b → m.links b = some x → m'.links b = some (x.1, next)
  first : ∀ b x, (keys back).head? = some b → m.links b = some x → m'.links b = some (prev, x.2)
  others : ∀ b, (keys front).getLast? ≠ some b → (keys back).head? ≠ some b → m'.node b = m.node b
  value : ∀ b, m'.value b = m.value b

section Relink

variable {next prev : Option ℕ}

theorem last_ne_first (hdisjoint : (keys front).Disjoint (keys back))
    (hlast : (keys front).getLast? = some b) :
    (keys back).head? ≠ some b :=
  fun hfirst => hdisjoint (List.mem_of_getLast? hlast) (List.mem_of_head? hfirst)

/-- The writes one after the other. -/
theorem relink (next prev : Option ℕ) (hdisjoint : (keys front).Disjoint (keys back))
    (hsome : ∀ b ∈ keys front ++ keys back, (m.node b).isSome) :
    ∃ m₁ m₂, m.modifyIf (keys front).getLast? (.setNext next) = some m₁ ∧
      m₁.modifyIf (keys back).head? (.setPrev prev) = some m₂ ∧
      Relinked m m₂ front back next prev := by
  obtain ⟨m₁, hm₁, h₁⟩ := modifyIf_wrote (.setNext next) fun b hb =>
    hsome b (List.mem_append_left _ (List.mem_of_getLast? hb))
  obtain ⟨m₂, hm₂, h₂⟩ := modifyIf_wrote (.setPrev prev) fun b hb =>
    h₁.isSome (hsome b (List.mem_append_right _ (List.mem_of_head? hb)))
  refine ⟨m₁, m₂, hm₁, hm₂, h₂.list.trans h₁.list, fun b x hb hx => ?_, fun b x hb hx => ?_,
    fun b hb hb' => ?_, fun b => ?_⟩
  · rw [h₂.links_setPrev, if_neg (last_ne_first hdisjoint hb), h₁.links_setNext, if_pos hb, hx]
    rfl
  · rw [h₂.links_setPrev, if_pos hb, h₁.links_setNext,
      if_neg fun heq => last_ne_first hdisjoint heq hb, hx]
    rfl
  · rw [h₂.node, if_neg hb', h₁.node, if_neg hb]
  · rw [h₂.value fun _ => rfl, h₁.value fun _ => rfl]

/-- The writes in the other order. -/
theorem relink_back (next prev : Option ℕ) (hdisjoint : (keys front).Disjoint (keys back))
    (hsome : ∀ b ∈ keys front ++ keys back, (m.node b).isSome) :
    ∃ m₁ m₂, m.modifyIf (keys back).head? (.setPrev prev) = some m₁ ∧
      m₁.modifyIf (keys front).getLast? (.setNext next) = some m₂ ∧
      Relinked m m₂ front back next prev := by
  obtain ⟨m₁, hm₁, h₁⟩ := modifyIf_wrote (.setPrev prev) fun b hb =>
    hsome b (List.mem_append_right _ (List.mem_of_head? hb))
  obtain ⟨m₂, hm₂, h₂⟩ := modifyIf_wrote (.setNext next) fun b hb =>
    h₁.isSome (hsome b (List.mem_append_left _ (List.mem_of_getLast? hb)))
  refine ⟨m₁, m₂, hm₁, hm₂, h₂.list.trans h₁.list, fun b x hb hx => ?_, fun b x hb hx => ?_,
    fun b hb hb' => ?_, fun b => ?_⟩
  · rw [h₂.links_setNext, if_pos hb, h₁.links_setPrev, if_neg (last_ne_first hdisjoint hb), hx]
    rfl
  · rw [h₂.links_setNext, if_neg fun heq => last_ne_first hdisjoint heq hb, h₁.links_setPrev,
      if_pos hb, hx]
    rfl
  · rw [h₂.node, if_neg hb, h₁.node, if_neg hb']
  · rw [h₂.value fun _ => rfl, h₁.value fun _ => rfl]

theorem Relinked.others_links (h : Relinked m m' front back next prev)
    (hlast : (keys front).getLast? ≠ some b) (hfirst : (keys back).head? ≠ some b) :
    m'.links b = m.links b := by
  rw [Memory.links, h.others b hlast hfirst]
  rfl

/-- Only the two nodes are written. -/
theorem Relinked.node_eq (h : Relinked m m' front back next prev) (hb : b ∉ keys (front ++ back)) :
    m'.node b = m.node b := by
  rw [keys_append] at hb
  exact h.others b (fun heq => hb (List.mem_append_left _ (List.mem_of_getLast? heq))) fun heq =>
    hb (List.mem_append_right _ (List.mem_of_head? heq))

end Relink

/-- The writes that put a node in, between two parts. -/
theorem Stores.insert (front back : List (ℕ × α)) (h : Stores m r (front ++ back))
    (ha : m.node a = none)
    (hw : Relinked (m.setNode a ⟨(keys front).getLast?, (keys back).head?, v⟩) m₂ front back
      (some a) (some a))
    (hhead : r'.head = (keys (front ++ (a, v) :: back)).head?)
    (htail : r'.tail = (keys (front ++ (a, v) :: back)).getLast?) (hlen : r'.len = r.len + 1) :
    Stores m₂ r' (front ++ (a, v) :: back) ∧
      Untouched m m₂ (front ++ back) (front ++ (a, v) :: back) := by
  have hkeys : keys (front ++ (a, v) :: back) = keys front ++ a :: keys back := by simp
  have hmem : a ∉ keys (front ++ back) := h.not_mem ha
  have hne : ∀ b ∈ keys (front ++ back), b ≠ a := fun b hb heq => hmem (heq ▸ hb)
  have hlinks : ∀ b ∈ keys (front ++ back), ∀ x, m.links b = some x →
      (m.setNode a ⟨(keys front).getLast?, (keys back).head?, v⟩).links b = some x := by
    intro b hb x hx
    rw [links_setNode, if_neg (hne b hb), hx]
  have hlinked := h.linked
  rw [keys_append] at hlinked hmem hne hlinks
  refine ⟨⟨?_, htail, ?_, ?_⟩, ?_⟩
  · rw [hhead, hkeys]
    refine hlinked.insert hmem ?_ (fun b x hb hx => ?_) (fun b x hb hx => ?_)
      fun b hb hlast hfirst => ?_
    · rw [hw.others_links (fun heq => hmem (List.mem_append_left _ (List.mem_of_getLast? heq)))
        fun heq => hmem (List.mem_append_right _ (List.mem_of_head? heq)),
          links_setNode, if_pos rfl]
    · exact hw.last b x hb (hlinks b (List.mem_append_left _ (List.mem_of_getLast? hb)) x hx)
    · exact hw.first b x hb (hlinks b (List.mem_append_right _ (List.mem_of_head? hb)) x hx)
    · rw [hw.others_links hlast hfirst, links_setNode, if_neg (hne b hb)]
  · rw [hlen, h.len]
    simp
    omega
  · intro x hx
    rw [hw.value, value_setNode]
    rcases List.mem_cons.mp (List.perm_middle.mem_iff.mp hx) with rfl | hx
    · rw [if_pos rfl]
    · rw [if_neg (hne x.1 (by rw [← keys_append]; exact mem_keys hx)), h.value x hx]
  · intro b hb hb'
    have hba : b ≠ a := fun heq => hb' (by simp [heq])
    rw [hw.node_eq hb, setNode_node, update_of_ne hba]

/-- The writes that take a node out. -/
theorem Stores.unlink (h : Stores m r (front ++ (a, v) :: back))
    (hw : Relinked m m₂ front back (keys back).head? (keys front).getLast?)
    (hhead : r'.head = (keys (front ++ back)).head?)
    (htail : r'.tail = (keys (front ++ back)).getLast?) (hlen : r'.len = r.len - 1) :
    Stores (m₂.freeNode a) r' (front ++ back) ∧
      Untouched m (m₂.freeNode a) (front ++ (a, v) :: back) (front ++ back) := by
  have hkeys : keys (front ++ (a, v) :: back) = keys front ++ a :: keys back := by simp
  have hlinked := h.linked
  rw [hkeys] at hlinked
  have hnodup := List.nodup_cons.mp (List.nodup_middle.mp hlinked.nodup)
  have hne : ∀ b ∈ keys front ++ keys back, b ≠ a := fun b hb heq => hnodup.1 (heq ▸ hb)
  have hfree : ∀ b, b ≠ a → (m₂.freeNode a).node b = m₂.node b := fun b hb => by
    rw [freeNode_node, update_of_ne hb]
  have hlinks : ∀ b ∈ keys front ++ keys back, (m₂.freeNode a).links b = m₂.links b := by
    intro b hb
    rw [Memory.links, hfree b (hne b hb)]
    rfl
  refine ⟨⟨?_, htail, ?_, ?_⟩, ?_⟩
  · rw [hhead, keys_append]
    refine hlinked.unlink (fun b x hb hx => ?_) (fun b x hb hx => ?_) fun b hb hlast hfirst => ?_
    · rw [hlinks b (List.mem_append_left _ (List.mem_of_getLast? hb)), hw.last b x hb hx]
    · rw [hlinks b (List.mem_append_right _ (List.mem_of_head? hb)), hw.first b x hb hx]
    · rw [hlinks b hb, hw.others_links hlast hfirst]
  · rw [hlen, h.len]
    simp
  · intro x hx
    have hxa : x.1 ≠ a := hne x.1 (by rw [← keys_append]; exact mem_keys hx)
    rw [Memory.value, hfree x.1 hxa]
    exact (hw.value x.1).trans (h.value x (List.perm_middle.mem_iff.mpr
      (List.mem_cons_of_mem _ hx)))
  · intro b hb hb'
    rw [hfree b fun heq => hb (by simp [heq]), hw.node_eq hb']

/-- The writes of `listRotate`. -/
theorem Stores.rotate {m₃ m₄ : Memory α} {c : ℕ} (h : Stores m r (front ++ [(c, w)] ++ [(a, v)]))
    (h₁ : Wrote m (some c) (.setNext none) m₁) (h₂ : Wrote m₁ r.head (.setPrev (some a)) m₂)
    (h₃ : Wrote m₂ (some a) (.setPrev none) m₃) (h₄ : Wrote m₃ (some a) (.setNext r.head) m₄)
    (hhead : r'.head = some a) (htail : r'.tail = some c) (hlen : r'.len = r.len) :
    Stores m₄ r' ((a, v) :: (front ++ [(c, w)])) ∧
      Untouched m m₄ (front ++ [(c, w)] ++ [(a, v)]) ((a, v) :: (front ++ [(c, w)])) := by
  have hlinked : Linked m.links r.head (keys (front ++ [(c, w)]) ++ a :: []) := by
    have hlinked := h.linked
    rwa [keys_append] at hlinked
  have hlast : (keys (front ++ [(c, w)])).getLast? = some c := by simp
  have hfirst : r.head = (keys (front ++ [(c, w)])).head? := by
    rw [hlinked.head_eq, keys_append]
    cases keys front <;> rfl
  have hmem : a ∉ keys (front ++ [(c, w)]) := by
    have hnodup := List.nodup_cons.mp (List.nodup_middle.mp hlinked.nodup)
    rw [List.append_nil] at hnodup
    exact hnodup.1
  -- the list without its last node, as the first write leaves it
  have hshort : Linked m₁.links r.head (keys (front ++ [(c, w)])) := by
    have hunlink := @Linked.unlink m.links m₁.links r.head _ _ a hlinked
    rw [List.append_nil] at hunlink
    rw [hfirst]
    refine hunlink ?_ ?_ ?_
    · intro b x hb hx
      rw [h₁.links_setNext, if_pos (hlast ▸ hb), hx]
      rfl
    · exact fun _ _ hb => nomatch hb
    · intro b _ hb _
      rw [h₁.links_setNext, if_neg (hlast ▸ hb)]
  have hlinks : ∀ b, b ≠ a → m₄.links b = m₂.links b := by
    intro b hb
    have hne : some a ≠ some b := fun heq => hb (Option.some.inj heq).symm
    rw [h₄.links_setNext, if_neg hne, h₃.links_setPrev, if_neg hne]
  have hne : ∀ b ∈ keys (front ++ [(c, w)]), b ≠ a := fun b hb heq => hmem (heq ▸ hb)
  refine ⟨⟨?_, ?_, ?_, ?_⟩, ?_⟩
  · rw [hhead]
    refine hshort.push hmem ?_ ?_ ?_
    · have ha : (m₂.links a).isSome := by
        obtain ⟨x, hx⟩ := Option.isSome_iff_exists.mp
          (h₂.isSome (h₁.isSome (h.isSome (by simp : a ∈ keys (front ++ [(c, w)] ++ [(a, v)])))))
        simp [Memory.links, hx]
      obtain ⟨x, hx⟩ := Option.isSome_iff_exists.mp ha
      rw [h₄.links_setNext, if_pos rfl, h₃.links_setPrev, if_pos rfl, hx]
      rfl
    · intro b x hb hx
      have hb' : b ∈ keys (front ++ [(c, w)]) := List.mem_of_head? (hfirst ▸ hb)
      rw [hlinks b (hne b hb'), h₂.links_setPrev, if_pos hb, hx]
      rfl
    · intro b hb hb'
      rw [hlinks b (hne b hb), h₂.links_setPrev, if_neg hb']
  · rw [htail, keys_cons, List.getLast?_cons, hlast]
    rfl
  · rw [hlen, h.len]
    simp
  · intro x hx
    rw [h₄.value fun _ => rfl, h₃.value fun _ => rfl, h₂.value fun _ => rfl, h₁.value fun _ => rfl]
    refine h.value x ?_
    rcases List.mem_cons.mp hx with rfl | hx
    · simp
    · exact List.mem_append_left _ hx
  · intro b _ hb
    have hb' : ∀ d ∈ keys ((a, v) :: (front ++ [(c, w)])), d ≠ b := fun d hd heq => hb (heq ▸ hd)
    have hhead' : r.head ≠ some b := fun heq =>
      hb (List.mem_cons_of_mem _ (List.mem_of_head? (hfirst ▸ heq)))
    have hca : some a ≠ some b := fun heq => hb' a (by simp) (Option.some.inj heq)
    have hcc : some c ≠ some b := fun heq => hb' c (by simp) (Option.some.inj heq)
    rw [h₄.node, if_neg hca, h₃.node, if_neg hca, h₂.node, if_neg hhead', h₁.node, if_neg hcc]

/-- The writes of `listJoin`. -/
theorem Stores.join {s : ListRecord α} (h : Stores m r xs) (hs : Stores m s ys)
    (hdisjoint : (keys xs).Disjoint (keys ys))
    (hw : Relinked m m₂ xs ys (keys ys).head? (keys xs).getLast?)
    (hhead : r'.head = (keys (xs ++ ys)).head?) (htail : r'.tail = (keys (xs ++ ys)).getLast?)
    (hlen : r'.len = r.len + s.len) :
    Stores m₂ r' (xs ++ ys) ∧ Untouched m m₂ (xs ++ ys) (xs ++ ys) := by
  refine ⟨⟨?_, htail, ?_, fun x hx => ?_⟩, fun b hb _ => hw.node_eq hb⟩
  · rw [hhead, keys_append]
    exact h.linked.join hs.linked hdisjoint hw.last hw.first fun b _ hb hb' =>
      hw.others_links hb hb'
  · rw [hlen, h.len, hs.len, List.length_append]
  · rw [hw.value]
    rcases List.mem_append.mp hx with hx | hx
    · exact h.value x hx
    · exact hs.value x hx

/-! ### Reading -/

variable {d : Direction}

theorem Direction.mem_orient : x ∈ d.orient xs ↔ x ∈ xs := by
  cases d with
  | startHead => exact Iff.rfl
  | startTail => exact List.mem_reverse

theorem Direction.orient_orient (d : Direction) (xs : List (ℕ × α)) :
    d.orient (d.orient xs) = xs := by
  cases d with
  | startHead => rfl
  | startTail => exact List.reverse_reverse xs

theorem Stores.start (h : Stores m r (d.orient xs)) : r.start d = (keys xs).head? := by
  cases d with
  | startHead => exact h.linked.head_eq
  | startTail =>
    have htail := h.tail
    rw [Direction.orient, keys_reverse, List.getLast?_reverse] at htail
    exact htail

variable {kept rest : List (ℕ × α)}

/-- The node that an iterator comes to, and where it goes on. -/
theorem Stores.next (h : Stores m r (d.orient (kept ++ x :: rest))) :
    ∃ y, m.node x.1 = some y ∧ y.value = x.2 ∧ y.onward d = (keys rest).head? := by
  have hmem : x ∈ d.orient (kept ++ x :: rest) := Direction.mem_orient.mpr (by simp)
  obtain ⟨y, hy, hvalue⟩ := Option.map_eq_some_iff.mp (h.value x hmem)
  refine ⟨y, hy, hvalue, ?_⟩
  have hlinks : ∀ f b, keys (d.orient (kept ++ x :: rest)) = f ++ x.1 :: b →
      y.prev = f.getLast? ∧ y.next = b.head? := by
    intro f b hsplit
    have hnode := h.linked.node f x.1 b hsplit
    rw [Memory.links, hy] at hnode
    exact Prod.mk.inj (Option.some.inj hnode)
  cases d with
  | startHead => exact (hlinks (keys kept) (keys rest) (by simp [Direction.orient])).2
  | startTail =>
    have hprev := (hlinks (keys rest).reverse (keys kept).reverse (by simp [Direction.orient])).1
    rwa [List.getLast?_reverse] at hprev

theorem Stores.listNext (h : Stores m r (d.orient (kept ++ x :: rest))) :
    listNext m d (some x.1) = some (some x, (keys rest).head?) := by
  obtain ⟨y, hy, hvalue, honward⟩ := h.next
  rw [ListMemory.listNext, hy, Option.map_some, hvalue, honward]

theorem Stores.walk (h : Stores m r (d.orient (kept ++ rest))) {n : ℕ}
    (hn : rest.length ≤ n) : m.walk d n (keys rest).head? = some rest := by
  induction rest generalizing kept n with
  | nil => cases n <;> rfl
  | cons x rest ih =>
    obtain ⟨n, rfl⟩ : ∃ k, n = k + 1 := ⟨n - 1, by simp at hn; omega⟩
    obtain ⟨y, hy, hvalue, honward⟩ := h.next
    have hrest : Stores m r (d.orient ((kept ++ [x]) ++ rest)) := by
      rwa [List.append_assoc]
    have hwalk := ih hrest (Nat.le_of_succ_le_succ hn)
    rw [keys_cons, List.head?_cons, Memory.walk, hy, Option.bind_some, honward, hwalk, hvalue]
    rfl

theorem Stores.indexLoop (h : Stores m r (d.orient (kept ++ rest))) (i : ℕ) :
    indexLoop m d i (keys rest).head? = some (keys rest)[i]? := by
  induction rest generalizing kept i with
  | nil => cases i <;> rfl
  | cons x rest ih =>
    cases i with
    | zero => rfl
    | succ i =>
      obtain ⟨y, hy, -, honward⟩ := h.next
      have hrest : Stores m r (d.orient ((kept ++ [x]) ++ rest)) := by
        rwa [List.append_assoc]
      rw [keys_cons, List.head?_cons, ListMemory.indexLoop, hy, Option.bind_some, honward, ih hrest,
        List.getElem?_cons_succ]

theorem Stores.forward (h : Stores m r xs) (hl : m.list l = some r) : m.forward l = some xs := by
  have hstart := @Stores.start _ m r xs .startHead h
  have hwalk := @Stores.walk _ m r .startHead [] xs h _ (Nat.le_of_eq h.len.symm)
  rw [Memory.forward, hl, Option.bind_some]
  rwa [← hstart] at hwalk

theorem Stores.backward (h : Stores m r xs) (hl : m.list l = some r) :
    m.backward l = some xs.reverse := by
  have h' : Stores m r (Direction.startTail.orient xs.reverse) := by
    rwa [Direction.orient, List.reverse_reverse]
  have hlen : xs.reverse.length ≤ r.len := by
    rw [List.length_reverse]
    exact Nat.le_of_eq h.len.symm
  have hwalk := @Stores.walk _ m r .startTail [] xs.reverse h' _ hlen
  rw [Memory.backward, hl, Option.bind_some]
  rwa [← h'.start] at hwalk

theorem Stores.listIndex (h : Stores m r xs) (hl : m.list l = some r) (index : ℤ) :
    listIndex m l index = some (atIndex xs index) := by
  have h' : Stores m r (Direction.startTail.orient xs.reverse) := by
    rwa [Direction.orient, List.reverse_reverse]
  rw [ListMemory.listIndex, hl, Option.bind_some, atIndex]
  split
  · have hloop := @Stores.indexLoop _ m r .startTail [] xs.reverse h' (-index - 1).toNat
    rwa [← h'.start] at hloop
  · have hstart := @Stores.start _ m r xs .startHead h
    have hloop := @Stores.indexLoop _ m r .startHead [] xs h index.toNat
    rwa [← hstart] at hloop

/-! ### Calls that change one list -/

/-- What a call does that changes one list. -/
structure Edits (m m' : Memory α) (l : ℕ) (r : ListRecord α) (xs ys : List (ℕ × α)) : Prop where
  record : ∃ r', m'.list = update m.list l (some r') ∧ r'.dup = r.dup ∧ Stores m' r' ys
  untouched : Untouched m m' xs ys
  fresh : ∀ a ∈ keys ys, a ∈ keys xs ∨ m.node a = none

theorem Edits.of_stores (h : Stores m₁ r' ys ∧ Untouched m m₁ xs ys) (hlist : m₁.list = m.list)
    (hdup : r'.dup = r.dup) (hfresh : ∀ a ∈ keys ys, a ∈ keys xs ∨ m.node a = none) :
    Edits m (m₁.setList l r') l r xs ys := by
  refine ⟨⟨r', ?_, hdup, h.1.congr fun _ _ => rfl⟩, h.2, hfresh⟩
  rw [Memory.setList, hlist]

variable {s : Sequence α}

theorem Refines.lookup (h : Refines m q) (hq : q l = some s) :
    ∃ r, m.list l = some r ∧ r.dup = s.dup ∧ Stores m r s.nodes := by
  cases hl : m.list l with
  | none => exact absurd (h.absent l hl) (by simp [hq])
  | some r =>
    obtain ⟨xs, hxs, hst⟩ := h.stores l r hl
    obtain rfl := Option.some.inj (hq.symm.trans hxs)
    exact ⟨r, rfl, rfl, hst⟩

/-- One list record is written or freed, and no node of another list is written. -/
theorem Refines.write {o : Option (ListRecord α)} {y : Option (Sequence α)} (h : Refines m q)
    (hlist : m'.list = update m.list l o) (hnone : o = none → y = none)
    (hstores : ∀ r', o = some r' → ∃ ys, y = some ⟨r'.dup, ys⟩ ∧ Stores m' r' ys)
    (hnode : ∀ k s, k ≠ l → q k = some s → ∀ a ∈ keys s.nodes, m'.node a = m.node a)
    (hapart : ∀ k s s', k ≠ l → q k = some s → y = some s' →
      (keys s'.nodes).Disjoint (keys s.nodes)) :
    Refines m' (update q l y) := by
  refine ⟨fun k hk => ?_, fun k r₁ hk => ?_, fun k k' s s' hne hs hs' => ?_⟩
  · by_cases hkl : k = l
    · subst hkl
      rw [hlist, update_self] at hk
      rw [update_self, hnone hk]
    · rw [hlist, update_of_ne hkl] at hk
      rw [update_of_ne hkl]
      exact h.absent k hk
  · by_cases hkl : k = l
    · subst hkl
      rw [hlist, update_self] at hk
      rw [update_self]
      exact hstores r₁ hk
    · rw [hlist, update_of_ne hkl] at hk
      obtain ⟨zs, hzs, hst⟩ := h.stores k r₁ hk
      exact ⟨zs, by rw [update_of_ne hkl, hzs], hst.congr (hnode k _ hkl hzs)⟩
  · by_cases hk : k = l
    · subst hk
      rw [update_self] at hs
      rw [update_of_ne (Ne.symm hne)] at hs'
      exact hapart k' s' s (Ne.symm hne) hs' hs
    · rw [update_of_ne hk] at hs
      by_cases hk' : k' = l
      · subst hk'
        rw [update_self] at hs'
        exact (hapart k s s' hk hs hs').symm
      · rw [update_of_ne hk'] at hs'
        exact h.apart k k' s s' hne hs hs'

/-- One list is written, and no node of another one. -/
theorem Refines.replace (h : Refines m q) (hlist : m'.list = update m.list l (some r'))
    (hstores : Stores m' r' ys)
    (hnode : ∀ k s, k ≠ l → q k = some s → ∀ a ∈ keys s.nodes, m'.node a = m.node a)
    (hapart : ∀ k s, k ≠ l → q k = some s → (keys ys).Disjoint (keys s.nodes)) :
    Refines m' (update q l (some ⟨r'.dup, ys⟩)) := by
  refine h.write hlist (by rintro ⟨⟩) (fun r₁ hr₁ => ?_) hnode fun k s s' hk hs hs' => ?_
  · obtain rfl := Option.some.inj hr₁
    exact ⟨ys, rfl, hstores⟩
  · obtain rfl := Option.some.inj hs'
    exact hapart k s hk hs

theorem Refines.edit (h : Refines m q) (hq : q l = some ⟨r.dup, xs⟩)
    (he : Edits m m' l r xs ys) : Refines m' (update q l (some ⟨r.dup, ys⟩)) := by
  obtain ⟨r', hlist, hdup, hstores⟩ := he.record
  -- a node of another list is neither one of the old nodes nor a new one
  have hapart : ∀ k s, k ≠ l → q k = some s → (keys ys).Disjoint (keys s.nodes) := by
    intro k s hk hs a ha ha'
    obtain ⟨r₁, -, -, hst⟩ := h.lookup hs
    rcases he.fresh a ha with hxs | hnone
    · exact h.apart l k _ _ (Ne.symm hk) hq hs hxs ha'
    · exact hst.not_mem hnone ha'
  rw [← hdup]
  refine h.replace hlist hstores (fun k s hk hs a ha => ?_) hapart
  exact he.untouched a (fun hxs => h.apart l k _ _ (Ne.symm hk) hq hs hxs ha) fun hy =>
    hapart k s hk hs hy ha

theorem Refines.edit_change {f : List (ℕ × α) → List (ℕ × α)} (h : Refines m q)
    (hq : q l = some ⟨r.dup, xs⟩) (he : Edits m m' l r xs (f xs)) : Refines m' (q.change l f) := by
  have hchange : q.change l f = update q l (some ⟨r.dup, f xs⟩) := by
    rw [Sequences.change, hq]
    rfl
  rw [hchange]
  exact h.edit hq he

/-- A new node between two parts of a list: the writes, and the list record that they leave. -/
theorem insert_edits (front back : List (ℕ × α)) (h : Stores m r (front ++ back))
    (ha : m.node a = none) :
    ∃ m₁ m₂, (m.setNode a ⟨(keys front).getLast?, (keys back).head?, v⟩).modifyIf
      (keys front).getLast?
        (.setNext (some a)) = some m₁ ∧
      m₁.modifyIf (keys back).head? (.setPrev (some a)) = some m₂ ∧
      ∀ l r', r'.head = (keys (front ++ (a, v) :: back)).head? →
        r'.tail = (keys (front ++ (a, v) :: back)).getLast? → r'.len = r.len + 1 → r'.dup = r.dup →
        Edits m (m₂.setList l r') l r (front ++ back) (front ++ (a, v) :: back) := by
  have hlinked := h.linked
  rw [keys_append] at hlinked
  obtain ⟨m₁, m₂, hm₁, hm₂, hw⟩ := @relink _ (m.setNode a ⟨(keys front).getLast?,
    (keys back).head?, v⟩) front back
    (some a) (some a) (List.disjoint_of_nodup_append hlinked.nodup) fun b hb => by
      rw [setNode_node, update_apply]
      split
      · rfl
      · exact h.isSome (by rwa [keys_append])
  refine ⟨m₁, m₂, hm₁, hm₂, fun l r' hhead htail hlen hdup => ?_⟩
  refine .of_stores (h.insert front back ha hw hhead htail hlen) hw.list hdup fun b hb => ?_
  simp only [keys_append, keys_cons, List.mem_append, List.mem_cons] at hb ⊢
  rcases hb with hb | rfl | hb
  · exact Or.inl (Or.inl hb)
  · exact Or.inr ha
  · exact Or.inl (Or.inr hb)

theorem modify_eq_modifyIf (f : ListNode α → ListNode α) (hp : p ≠ none) :
    m.modify p f = m.modifyIf p f :=
  (if_neg hp).symm

theorem Stores.keys_ne_nil (h : Stores m r xs) (hlen : r.len ≠ 0) : keys xs ≠ [] := by
  intro heq
  rw [keys, List.map_eq_nil_iff] at heq
  exact hlen (h.len.trans (by rw [heq]; rfl))

theorem listAddNodeHead_edits (h : Stores m r xs) (hl : m.list l = some r) (ha : m.node a = none) :
    ∃ m', listAddNodeHead m l a v = some m' ∧ Edits m m' l r xs ((a, v) :: xs) := by
  rw [listAddNodeHead, hl, Option.bind_some]
  obtain ⟨m₁, m₂, hm₁, hm₂, hedits⟩ := @insert_edits _ m r a v [] xs h ha
  obtain rfl := Option.some.inj hm₁
  by_cases hlen : r.len = 0
  · obtain rfl : xs = [] := List.eq_nil_of_length_eq_zero (h.len ▸ hlen)
    obtain rfl := Option.some.inj hm₂
    rw [if_pos hlen]
    exact ⟨_, rfl, hedits l _ rfl rfl rfl rfl⟩
  · have hxs := h.keys_ne_nil hlen
    have hhead : r.head ≠ none := by rwa [h.linked.head_eq, Ne, List.head?_eq_none_iff]
    rw [if_neg hlen, modify_eq_modifyIf _ hhead, h.linked.head_eq]
    refine ⟨_, congrArg (Option.map _) hm₂, hedits l _ rfl ?_ rfl rfl⟩
    show r.tail = _
    rw [h.tail, keys_append, keys_cons]
    exact (List.getLast?_append_of_ne_nil [a] hxs).symm

theorem listAddNodeTail_edits (h : Stores m r xs) (hl : m.list l = some r) (ha : m.node a = none) :
    ∃ m', listAddNodeTail m l a v = some m' ∧ Edits m m' l r xs (xs ++ [(a, v)]) := by
  rw [listAddNodeTail, hl, Option.bind_some]
  obtain ⟨m₁, m₂, hm₁, hm₂, hedits⟩ := @insert_edits _ m r a v xs [] (by rwa [List.append_nil]) ha
  obtain rfl := Option.some.inj hm₂
  rw [List.append_nil] at hedits
  by_cases hlen : r.len = 0
  · obtain rfl : xs = [] := List.eq_nil_of_length_eq_zero (h.len ▸ hlen)
    obtain rfl := Option.some.inj hm₁
    rw [if_pos hlen]
    exact ⟨_, rfl, hedits l _ rfl rfl rfl rfl⟩
  · have hxs := h.keys_ne_nil hlen
    have htail : r.tail ≠ none := by rwa [h.tail, Ne, List.getLast?_eq_none_iff]
    rw [if_neg hlen, modify_eq_modifyIf _ htail, h.tail]
    refine ⟨_, congrArg (Option.map _) hm₁, hedits l _ ?_ (by simp) rfl rfl⟩
    show r.head = _
    rw [h.linked.head_eq, keys_append, List.head?_append_of_ne_nil _ hxs]

/-- A node of a list, with the nodes before and behind it. -/
theorem Stores.split (h : Stores m r xs) (hb : b ∈ keys xs) :
    ∃ front w back x, xs = front ++ (b, w) :: back ∧ m.node b = some x ∧
      x.prev = (keys front).getLast? ∧
      x.next = (keys back).head? ∧ b ∉ keys front ∧ b ∉ keys back := by
  obtain ⟨⟨c, w⟩, hx, rfl⟩ := List.mem_map.mp hb
  obtain ⟨front, back, rfl⟩ := List.append_of_mem hx
  have hkeys : keys (front ++ (c, w) :: back) = keys front ++ c :: keys back := by simp
  have hlinks := h.linked.node (keys front) c (keys back) hkeys
  obtain ⟨x, hx, heq⟩ := Option.map_eq_some_iff.mp hlinks
  obtain ⟨hprev, hnext⟩ := Prod.mk.inj heq
  have hnodup := (List.nodup_cons.mp (List.nodup_middle.mp (hkeys ▸ h.linked.nodup))).1
  rw [List.mem_append, not_or] at hnodup
  exact ⟨front, w, back, x, rfl, hx, hprev, hnext, hnodup.1, hnodup.2⟩

theorem insertBeside_split (hb : b ∉ keys front) (x : ℕ × α) (after : Bool) :
    insertBeside b x after (front ++ (b, w) :: back) =
      front ++ (if after then (b, w) :: x :: back else x :: (b, w) :: back) := by
  induction front with
  | nil => rw [List.nil_append, insertBeside, if_pos rfl, List.nil_append]
  | cons y front ih =>
    rw [keys_cons, List.mem_cons, not_or] at hb
    rw [List.cons_append, insertBeside, if_neg (Ne.symm hb.1), ih hb.2]
    rfl

theorem listInsertNode_edits (h : Stores m r xs) (hl : m.list l = some r) (hb : b ∈ keys xs)
    (ha : m.node a = none) (after : Bool) :
    ∃ m', listInsertNode m l b a v after = some m' ∧
      Edits m m' l r xs (insertBeside b (a, v) after xs) := by
  obtain ⟨front, w, back, x, rfl, hx, hprev, hnext, hfront, hback⟩ := h.split hb
  rw [listInsertNode, hl, Option.bind_some, hx, Option.bind_some, insertBeside_split hfront]
  have hhead := h.linked.head_eq
  have htail := h.tail
  rw [keys_append, keys_cons] at hhead htail
  cases after with
  | true =>
    have hsplit : front ++ (b, w) :: back = (front ++ [(b, w)]) ++ back := by simp
    rw [hsplit] at h ⊢
    obtain ⟨m₁, m₂, hm₁, hm₂, hedits⟩ := @insert_edits _ m r a v _ _ h ha
    have hlast : (keys (front ++ [(b, w)])).getLast? = some b := by simp
    rw [hlast] at hm₁
    simp only [if_true, hnext, hm₁, hm₂, Option.bind_some, Option.map_some]
    have hnew : front ++ (b, w) :: (a, v) :: back = (front ++ [(b, w)]) ++ (a, v) :: back := by simp
    rw [hnew]
    refine ⟨_, rfl, hedits l _ ?_ ?_ rfl rfl⟩
    · simp only [not_true, false_and, if_false, hhead, keys_append, keys_cons]
      cases keys front <;> rfl
    · simp only [true_and, htail]
      cases hkeys : keys back with
      | nil => simp [hkeys]
      | cons c cs =>
        have hne : (keys front ++ b :: c :: cs).getLast? ≠ some b := fun heq => by
          rw [List.getLast?_append_of_ne_nil _ (by simp), List.getLast?_cons_cons] at heq
          exact hback (hkeys ▸ List.mem_of_getLast? heq)
        rw [if_neg hne]
        simp [hkeys, List.getLast?_append, List.getLast?_cons]
  | false =>
    obtain ⟨m₁, m₂, hm₁, hm₂, hedits⟩ := @insert_edits _ m r a v _ _ h ha
    have hfirst : (keys ((b, w) :: back)).head? = some b := rfl
    rw [hfirst] at hm₁ hm₂
    simp only [Bool.false_eq_true, if_false, hprev, hm₁, hm₂, Option.bind_some, Option.map_some]
    refine ⟨_, rfl, hedits l _ ?_ ?_ rfl rfl⟩
    · simp only [not_false_eq_true, true_and, hhead, keys_append, keys_cons]
      cases hkeys : keys front with
      | nil => simp
      | cons c cs =>
        have hne : c ≠ b := fun heq => hfront (by simp [hkeys, heq])
        simp [hne]
    · simp only [false_and, if_false, htail, keys_append, keys_cons]
      simp [List.getLast?_append, List.getLast?_cons]

theorem filter_split (hfront : b ∉ keys front) (hback : b ∉ keys back) :
    (front ++ (b, w) :: back).filter (·.1 ≠ b) = front ++ back := by
  have hkeep : ∀ zs : List (ℕ × α), b ∉ keys zs → zs.filter (·.1 ≠ b) = zs := by
    intro zs hzs
    refine List.filter_eq_self.mpr fun x hx => ?_
    have hne : x.1 ≠ b := fun heq => hzs (heq ▸ mem_keys hx)
    simpa using hne
  rw [List.filter_append, List.filter_cons_of_neg (by simp), hkeep front hfront, hkeep back hback]

theorem listDelNode_edits (h : Stores m r xs) (hl : m.list l = some r) (hb : b ∈ keys xs) :
    ∃ m', listDelNode m l b = some m' ∧ Edits m m' l r xs (xs.filter (·.1 ≠ b)) := by
  obtain ⟨front, w, back, x, rfl, hx, hprev, hnext, hfront, hback⟩ := h.split hb
  have hmem : ∀ c ∈ keys front ++ keys back, c ∈ keys (front ++ (b, w) :: back) := by
    intro c hc
    rw [keys_append, keys_cons]
    exact List.perm_middle.mem_iff.mpr (List.mem_cons_of_mem _ hc)
  have hnodup := h.linked.nodup
  rw [keys_append, keys_cons] at hnodup
  have hdisjoint := List.disjoint_of_nodup_append (List.nodup_cons.mp
    (List.nodup_middle.mp hnodup)).2
  obtain ⟨m₁, m₂, hm₁, hm₂, hw⟩ := relink (keys back).head? (keys front).getLast?
    hdisjoint fun c hc =>
    h.isSome (hmem c hc)
  rw [listDelNode, hl, Option.bind_some, hx, Option.bind_some, filter_split hfront hback]
  simp only [hprev, hnext, hm₁, hm₂, Option.bind_some, Option.map_some]
  refine ⟨_, rfl, .of_stores ?_ hw.list rfl fun c hc =>
    Or.inl (hmem c (keys_append front back ▸ hc))⟩
  have hhead := h.linked.head_eq
  have htail := h.tail
  rw [keys_append, keys_cons] at hhead htail
  refine h.unlink hw ?_ ?_ rfl
  · rw [hhead, keys_append]
    cases keys front with
    | nil => simp
    | cons c cs => simp [List.getLast?_cons]
  · rw [htail, keys_append]
    cases keys back with
    | nil => simp
    | cons c cs => simp [List.getLast?_append, List.getLast?_cons]

theorem exists_concat (hxs : xs ≠ []) : ∃ ys a v, xs = ys ++ [(a, v)] :=
  ⟨xs.dropLast, _, _, (List.dropLast_append_getLast hxs).symm⟩

theorem listRotate_edits (h : Stores m r xs) (hl : m.list l = some r) :
    ∃ m', listRotate m l = some m' ∧ Edits m m' l r xs (rotated xs) := by
  rw [listRotate, hl, Option.bind_some]
  by_cases hlen : r.len ≤ 1
  · rw [if_pos hlen]
    have hrotated : rotated xs = xs := by
      rw [h.len] at hlen
      match xs, hlen with
      | [], _ => rfl
      | [_], _ => rfl
    rw [hrotated]
    exact ⟨m, rfl, ⟨r, by rw [← hl, update_eq_self], rfl, h⟩, fun _ _ _ => rfl,
      fun _ hc => Or.inl hc⟩
  · rw [if_neg hlen]
    have hlong : 1 < xs.length := h.len ▸ not_le.mp hlen
    obtain ⟨ys, a, v, rfl⟩ := exists_concat (List.ne_nil_of_length_pos (Nat.lt_of_succ_lt hlong))
    rw [List.length_append] at hlong
    obtain ⟨front, c, w, rfl⟩ := exists_concat (List.ne_nil_of_length_pos
      (Nat.lt_of_succ_lt_succ hlong))
    have hrotated : rotated (front ++ [(c, w)] ++ [(a, v)]) = (a, v) :: (front ++ [(c, w)]) := by
      simp [rotated]
    have htail : r.tail = some a := by
      rw [h.tail]
      simp
    have hnode : ∃ x, m.node a = some x ∧ x.prev = some c := by
      have hlinks := h.linked.node (keys (front ++ [(c, w)])) a [] (by simp)
      obtain ⟨x, hx, heq⟩ := Option.map_eq_some_iff.mp hlinks
      refine ⟨x, hx, (Prod.mk.inj heq).1.trans ?_⟩
      simp
    obtain ⟨x, hx, hprev⟩ := hnode
    obtain ⟨e, he, hmem⟩ : ∃ e, r.head = some e ∧ e ∈ keys (front ++ [(c, w)] ++ [(a, v)]) := by
      have hhead := h.linked.head_eq
      cases hkeys : keys (front ++ [(c, w)] ++ [(a, v)]) with
      | nil => simp at hkeys
      | cons e es => exact ⟨e, by rw [hhead, hkeys]; rfl, by simp⟩
    obtain ⟨m₁, hm₁, h₁⟩ := modify_wrote (.setNext none) (h.isSome (a := c) (by simp))
    obtain ⟨m₂, hm₂, h₂⟩ := modify_wrote (.setPrev (some a)) (h₁.isSome (h.isSome hmem))
    obtain ⟨m₃, hm₃, h₃⟩ := modify_wrote (.setPrev none)
      (h₂.isSome (h₁.isSome (h.isSome (a := a) (by simp))))
    obtain ⟨m₄, hm₄, h₄⟩ := modify_wrote (.setNext (some e))
      (h₃.isSome (h₂.isSome (h₁.isSome (h.isSome (a := a) (by simp)))))
    simp only [htail, hx, hprev, he, hm₁, hm₂, hm₃, hm₄, Option.bind_some, Option.map_some]
    rw [hrotated]
    rw [← he] at h₂ h₄
    have hlists : m₄.list = m.list := by rw [h₄.list, h₃.list, h₂.list, h₁.list]
    refine ⟨_, rfl, .of_stores (h.rotate h₁ h₂ h₃ h₄ rfl rfl rfl) hlists rfl fun b hb => Or.inl ?_⟩
    simp only [keys_cons, keys_append, List.mem_cons, List.mem_append] at hb ⊢
    tauto

/-! ### The other calls -/

/-- The nodes from a pointer on are freed. -/
theorem emptyLoop_spec (xs : List (ℕ × α)) (hnodup : (keys xs).Nodup)
    (hnext : ∀ front x back, xs = front ++ x :: back →
      ∃ y, m.node x.1 = some y ∧ y.next = (keys back).head?) :
    ∃ m', emptyLoop xs.length m (keys xs).head? = some m' ∧ m'.list = m.list ∧
      ∀ b, b ∉ keys xs → m'.node b = m.node b := by
  induction xs generalizing m with
  | nil => exact ⟨m, rfl, rfl, fun _ _ => rfl⟩
  | cons x xs ih =>
    obtain ⟨y, hy, hynext⟩ := hnext [] x xs rfl
    rw [keys_cons, List.nodup_cons] at hnodup
    obtain ⟨m', hm', hlist, hnode⟩ := @ih (m.freeNode x.1) hnodup.2 fun front z back hsplit => by
      obtain ⟨y', hy', hnext'⟩ := hnext (x :: front) z back (by rw [hsplit]; rfl)
      have hne : z.1 ≠ x.1 := fun heq => hnodup.1 (heq ▸ mem_keys (by simp [hsplit]))
      exact ⟨y', by rw [freeNode_node, update_of_ne hne, hy'], hnext'⟩
    refine ⟨m', ?_, hlist, fun b hb => ?_⟩
    · rw [List.length_cons, keys_cons, List.head?_cons, emptyLoop, Option.bind_some, hy,
        Option.bind_some, hynext, hm']
    · rw [keys_cons, List.mem_cons, not_or] at hb
      rw [hnode b hb.2, freeNode_node, update_of_ne hb.1]

theorem listEmpty_edits (h : Stores m r xs) (hl : m.list l = some r) :
    ∃ m', listEmpty m l = some m' ∧ Edits m m' l r xs [] := by
  obtain ⟨m', hm', hlist, hnode⟩ := emptyLoop_spec xs h.linked.nodup fun front x back hsplit => by
    obtain ⟨y, hy, -, hnext⟩ := @Stores.next _ x m r .startHead front back (hsplit ▸ h)
    exact ⟨y, hy, hnext⟩
  rw [listEmpty, hl, Option.bind_some, h.len, h.linked.head_eq, hm']
  refine ⟨_, rfl, .of_stores ⟨stores_nil m' r.dup, fun b hb _ => hnode b hb⟩ hlist rfl nofun⟩

/-- A list record is freed. -/
theorem Refines.drop (h : Refines m q) (l : ℕ) :
    Refines { m with list := update m.list l none } (update q l none) :=
  h.write rfl (fun _ => rfl) (by rintro _ ⟨⟩) (fun _ _ _ _ _ _ => rfl) (by rintro _ _ _ _ _ ⟨⟩)

theorem listRelease_refines (h : Refines m q) (hq : q l = some s) :
    ∃ m', listRelease m l = some m' ∧ Refines m' (update q l none) := by
  obtain ⟨r, hl, hdup, hst⟩ := h.lookup hq
  obtain ⟨m₁, hm₁, he⟩ := listEmpty_edits hst hl
  have hq' : q l = some ⟨r.dup, s.nodes⟩ := by rw [hq, hdup]
  refine ⟨_, by rw [listRelease, hm₁]; rfl, ?_⟩
  have hdrop := (h.edit hq' he).drop l
  rwa [update_idem] at hdrop

/-- A list record without nodes is written; the nodes that the list had are left to none. -/
theorem Refines.clear (h : Refines m q) (l : ℕ) (dup : Option (α → Option α)) :
    Refines (m.setList l ⟨none, none, dup, 0⟩) (update q l (some ⟨dup, []⟩)) := by
  have hreplace := @Refines.replace _ m (m.setList l ⟨none, none, dup, 0⟩) ⟨none,
    none, dup, 0⟩ [] q l h rfl
  refine hreplace (stores_nil _ dup) (fun _ _ _ _ _ _ => rfl) fun _ _ _ _ => ?_
  exact List.disjoint_nil_left _

theorem listSetDupMethod_refines (h : Refines m q) (hq : q l = some s)
    (dup : Option (α → Option α)) :
    ∃ m', listSetDupMethod m l dup = some m' ∧
      Refines m' (update q l (some { s with dup := dup })) := by
  obtain ⟨r, hl, -, hst⟩ := h.lookup hq
  refine ⟨_, by rw [listSetDupMethod, hl]; rfl, ?_⟩
  have hst' : Stores (m.setList l { r with dup := dup }) { r with dup := dup } s.nodes :=
    ⟨hst.linked, hst.tail, hst.len, hst.value⟩
  exact h.replace rfl hst' (fun _ _ _ _ _ _ => rfl) fun k s' hk hs' =>
    h.apart l k s s' (Ne.symm hk) hq hs'

theorem listJoin_refines {o : ℕ} {t : Sequence α} (h : Refines m q) (hs : q l = some s)
    (ht : q o = some t) (hne : l ≠ o) :
    ∃ m', listJoin m l o = some m' ∧
      Refines m' (update (update q o (some ⟨t.dup, []⟩)) l (some ⟨s.dup, s.nodes ++ t.nodes⟩)) := by
  obtain ⟨r, hl, hdup, hst⟩ := h.lookup hs
  obtain ⟨r₂, ho, hdup₂, hst₂⟩ := h.lookup ht
  have hdisjoint := h.apart l o s t hne hs ht
  have hhead₂ := hst₂.linked.head_eq
  obtain ⟨m₁, m₂, hm₁, hm₂, hw⟩ := relink_back (keys t.nodes).head? (keys s.nodes).getLast?
    hdisjoint fun b hb => by
    rcases List.mem_append.mp hb with hb | hb
    · exact hst.isSome hb
    · exact hst₂.isSome hb
  rw [← hhead₂, ← hst.tail] at hm₁ hm₂
  rw [listJoin, hl, Option.bind_some, ho, Option.bind_some, hm₁, Option.bind_some, hm₂,
    Option.map_some]
  refine ⟨_, rfl, ?_⟩
  have hhead : (if r.tail = none then r₂.head else r.head) = (keys (s.nodes ++ t.nodes)).head? := by
    rw [hst.tail, hst.linked.head_eq, hhead₂, keys_append]
    cases keys s.nodes with
    | nil => rfl
    | cons c cs => simp [List.getLast?_cons]
  have htail : (if r₂.tail = none then r.tail else r₂.tail)
      = (keys (s.nodes ++ t.nodes)).getLast? := by
    rw [hst.tail, hst₂.tail, keys_append, List.getLast?_append]
    cases keys t.nodes with
    | nil => rfl
    | cons c cs => simp [List.getLast?_cons]
  obtain ⟨r', hr'⟩ : ∃ r' : ListRecord α, r' =
      { r with head := if r.tail = none then r₂.head else r.head,
               tail := if r₂.tail = none then r.tail else r₂.tail, len := r.len + r₂.len } :=
                 ⟨_, rfl⟩
  have hdup' : r'.dup = s.dup := by rw [hr', ← hdup]
  obtain ⟨hstores, huntouched⟩ : Stores m₂ r' (s.nodes ++ t.nodes) ∧
      Untouched m m₂ (s.nodes ++ t.nodes) (s.nodes ++ t.nodes) := by
    rw [hr']
    exact hst.join hst₂ hdisjoint hw hhead htail rfl
  -- the second list is emptied first, which leaves its nodes to no list
  have hclear := h.clear o r₂.dup
  rw [hdup₂] at hclear
  -- so no other list has a node of either list
  have hapart : ∀ k s', k ≠ l → update q o (some ⟨t.dup, []⟩) k = some s' →
      (keys (s.nodes ++ t.nodes)).Disjoint (keys s'.nodes) := by
    intro k s' hk hs'
    by_cases hko : k = o
    · rw [hko, update_self] at hs'
      obtain rfl := Option.some.inj hs'
      exact List.disjoint_nil_right _
    · rw [update_of_ne hko] at hs'
      rw [keys_append, List.disjoint_append_left]
      exact ⟨h.apart l k s s' (Ne.symm hk) hs hs', h.apart o k t s' (Ne.symm hko) ht hs'⟩
  simp only [← hr', ← hdup']
  refine hclear.replace ?_ (hstores.congr fun _ _ => rfl) (fun k s' hk hs' a ha => ?_) hapart
  · simp only [Memory.setList, hw.list, hdup₂]
    exact update_comm hne _ _ _
  · have hnot : a ∉ keys (s.nodes ++ t.nodes) := fun ha' => hapart k s' hk hs' ha' ha
    exact huntouched a hnot hnot

/-! ### Loops over a list -/

theorem Direction.filter_orient (hnodup : (keys (d.orient (kept ++ x :: rest))).Nodup) :
    (d.orient (kept ++ x :: rest)).filter (·.1 ≠ x.1) = d.orient (kept ++ rest) := by
  have hsplit : ∀ front back : List (ℕ × α), (keys (front ++ x :: back)).Nodup →
      (front ++ x :: back).filter (·.1 ≠ x.1) = front ++ back := by
    intro front back hn
    rw [keys_append, keys_cons] at hn
    have hmem := (List.nodup_cons.mp (List.nodup_middle.mp hn)).1
    rw [List.mem_append, not_or] at hmem
    exact @filter_split _ front back x.1 x.2 hmem.1 hmem.2
  cases d with
  | startHead => exact hsplit kept rest hnodup
  | startTail =>
    simp only [Direction.orient, List.reverse_append, List.reverse_cons, List.append_assoc,
      List.singleton_append] at hnodup ⊢
    exact hsplit rest.reverse kept.reverse hnodup

/-- An iteration meets the nodes that are left; those that the body deletes are taken out. -/
theorem iterLoop_refines (deletes : ℕ → Bool)
    {calls : ℕ} (h : Refines m q) (hq : q l = some ⟨dup, d.orient (kept ++ rest)⟩)
    (hcalls : rest.length ≤ calls) :
    ∃ m', iterLoop l d deletes calls m (keys rest).head? = some (m', rest) ∧
      Refines m' (update q l
        (some ⟨dup, d.orient (kept ++ rest.filter fun x => !deletes x.1)⟩)) := by
  induction rest generalizing m q kept calls with
  | nil =>
    refine ⟨m, by rw [iterLoop.eq_def]; rfl, ?_⟩
    rw [List.filter_nil, ← hq, update_eq_self]
    exact h
  | cons x rest ih =>
    obtain ⟨calls, rfl⟩ : ∃ k, calls = k + 1 := ⟨calls - 1, by simp at hcalls; omega⟩
    have hcalls' : rest.length ≤ calls := Nat.le_of_succ_le_succ hcalls
    obtain ⟨r, hl, hdup, hst⟩ := h.lookup hq
    rw [iterLoop.eq_def, keys_cons, List.head?_cons]
    dsimp only
    rw [hst.listNext, Option.bind_some]
    dsimp only
    by_cases hx : deletes x.1
    · have hmem : x.1 ∈ keys (d.orient (kept ++ x :: rest)) :=
        mem_keys (Direction.mem_orient.mpr (by simp))
      obtain ⟨m₁, hm₁, he⟩ := listDelNode_edits hst hl hmem
      rw [Direction.filter_orient hst.linked.nodup] at he
      have hr := h.edit (r := r) (by rw [hq, hdup]) he
      rw [hdup] at hr
      obtain ⟨m', hm', hr'⟩ := ih hr (update_self _ _ _) hcalls'
      refine ⟨m', ?_, ?_⟩
      · rw [if_pos hx, hm₁, Option.bind_some, hm']
        rfl
      · rw [update_idem] at hr'
        rwa [List.filter_cons_of_neg (by simp [hx])]
    · have hq' : q l = some ⟨dup, d.orient ((kept ++ [x]) ++ rest)⟩ := by
        rw [hq, List.append_assoc]
        rfl
      obtain ⟨m', hm', hr'⟩ := ih h hq' hcalls'
      refine ⟨m', ?_, ?_⟩
      · rw [if_neg hx, Option.bind_some, hm']
        rfl
      · rw [List.filter_cons_of_pos (by simp [hx])]
        rwa [List.append_assoc] at hr'

theorem Direction.orient_filter (d : Direction) (xs : List (ℕ × α)) (f : ℕ × α → Bool) :
    d.orient ((d.orient xs).filter f) = xs.filter f := by
  cases d with
  | startHead => rfl
  | startTail => rw [Direction.orient, Direction.orient, List.filter_reverse, List.reverse_reverse]

theorem iterate_refines (deletes : ℕ → Bool) (h : Refines m q) (hq : q l = some s) :
    ∃ m', iterate m l d deletes = some (m', d.orient s.nodes) ∧
      Refines m' (update q l (some ⟨s.dup, s.nodes.filter fun x => !deletes x.1⟩)) := by
  obtain ⟨r, hl, hdup, hst⟩ := h.lookup hq
  have hq' : q l = some ⟨s.dup, d.orient ([] ++ d.orient s.nodes)⟩ := by
    rw [hq, List.nil_append, Direction.orient_orient]
  have hlen : (d.orient s.nodes).length ≤ r.len := by
    rw [hst.len]
    cases d <;> simp [Direction.orient]
  obtain ⟨m', hm', hr⟩ := iterLoop_refines deletes h hq' hlen
  have hst' : Stores m r (d.orient (d.orient s.nodes)) := by rwa [Direction.orient_orient]
  refine ⟨m', ?_, ?_⟩
  · rw [iterate, hl, Option.bind_some, hst'.start, hm']
  · rwa [List.nil_append, Direction.orient_filter] at hr

theorem dupValues_cons (dup : Option (α → Option α)) (x : ℕ × α) (xs : List (ℕ × α)) :
    dupValues dup (x :: xs) = (dupValue dup x.2).bind fun v => (dupValues dup xs).map (v :: ·) := by
  rw [dupValues, List.mapM_cons]
  cases dupValue dup x.2 with
  | none => rfl
  | some v =>
    rw [Option.bind_some, Option.map_eq_bind]
    rfl

/-- The sequences after `listDup`, from those with the copy so far. -/
def dupResult (q : Sequences α) (copy : ℕ) (dup : Option (α → Option α)) (ys : List (ℕ × α))
    (addrs : List ℕ) (values : Option (List α)) : Sequences α :=
  update q copy (values.map fun vs => ⟨dup, ys ++ addrs.zip vs⟩)

/-- The copy gets the values that are left, or is released. -/
theorem dupLoop_refines {orig copy : ℕ} {done : List (ℕ × α)}
    (hne : orig ≠ copy) (h : Refines m q)
    (horig : q orig = some ⟨dup, done ++ rest⟩) (hcopy : q copy = some ⟨dup, ys⟩)
    (haddrs : addrs.Nodup) (hfresh : ∀ a ∈ addrs, m.node a = none)
    (hlen : rest.length ≤ addrs.length) :
    ∃ m', dupLoop copy dup addrs m (keys rest).head? = some (m', (dupValues dup rest).isSome) ∧
      Refines m' (dupResult q copy dup ys addrs (dupValues dup rest)) := by
  induction rest generalizing m q done ys addrs with
  | nil =>
    refine ⟨m, by rw [dupLoop.eq_def]; rfl, ?_⟩
    have hres : dupResult q copy dup ys addrs (dupValues dup []) = q := by
      show update q copy (some ⟨dup, ys ++ addrs.zip []⟩) = q
      rw [List.zip_nil_right, List.append_nil, ← hcopy, update_eq_self]
    rwa [hres]
  | cons x rest ih =>
    obtain ⟨node, addrs, rfl⟩ : ∃ node rest', addrs = node :: rest' := by
      cases addrs with
      | nil => simp at hlen
      | cons node addrs => exact ⟨node, addrs, rfl⟩
    obtain ⟨r, -, -, hst⟩ := h.lookup horig
    have hnext := @Stores.listNext _ x m r .startHead done rest hst
    rw [dupLoop.eq_def, keys_cons, List.head?_cons, dupValues_cons]
    dsimp only
    rw [hnext, Option.bind_some]
    dsimp only
    cases hv : dupValue dup x.2 with
    | none =>
      obtain ⟨m', hm', hr⟩ := listRelease_refines h hcopy
      exact ⟨m', by rw [hm']; rfl, hr⟩
    | some v =>
      obtain ⟨r₂, hl₂, hdup₂, hst₂⟩ := h.lookup hcopy
      obtain ⟨m₁, hm₁, he⟩ := @listAddNodeTail_edits _ m r₂ ys copy node v hst₂ hl₂
        (hfresh node (by simp))
      have hr := h.edit (by rw [hcopy, hdup₂]) he
      rw [hdup₂] at hr
      have hnodup := List.nodup_cons.mp haddrs
      -- the addresses that are left are still free
      have hfresh₁ : ∀ a ∈ addrs, m₁.node a = none := by
        intro a ha
        have hnone := hfresh a (List.mem_cons_of_mem _ ha)
        have hys := hst₂.not_mem hnone
        rw [he.untouched a hys, hnone]
        rw [keys_append, List.mem_append, not_or]
        refine ⟨hys, fun heq => hnodup.1 ?_⟩
        obtain rfl : a = node := List.mem_singleton.mp heq
        exact ha
      have horig₁ : update q copy (some ⟨dup, ys ++ [(node, v)]⟩) orig
          = some ⟨dup, (done ++ [x]) ++ rest⟩ := by
        rw [update_of_ne hne, horig, List.append_assoc]
        rfl
      obtain ⟨m', hm', hr'⟩ := ih hr horig₁ (update_self _ _ _) hnodup.2 hfresh₁
        (Nat.le_of_succ_le_succ hlen)
      refine ⟨m', ?_, ?_⟩
      · dsimp only
        rw [hm₁, Option.bind_some, hm', Option.bind_some, Option.isSome_map]
      · rw [dupResult, update_idem] at hr'
        rw [dupResult, Option.bind_some, Option.map_map]
        have hzip : ((fun vs => (⟨dup, ys ++ (node :: addrs).zip vs⟩ : Sequence α))
            ∘ fun vs => v :: vs) =
            fun vs => ⟨dup, ys ++ [(node, v)] ++ addrs.zip vs⟩ := by
          funext vs
          simp
        rwa [hzip]

theorem listDup_refines {orig copy : ℕ} (h : Refines m q)
    (hq : q orig = some s) (hcopy : m.list copy = none) (haddrs : addrs.Nodup)
    (hfresh : ∀ a ∈ addrs, m.node a = none) (hlen : s.nodes.length ≤ addrs.length) :
    ∃ m', listDup m orig copy addrs = some (m', (dupValues s.dup s.nodes).isSome) ∧
      Refines m' (dupResult q copy s.dup [] addrs (dupValues s.dup s.nodes)) := by
  obtain ⟨r, hl, hdup, hst⟩ := h.lookup hq
  have hne : orig ≠ copy := by
    rintro rfl
    rw [hl] at hcopy
    exact nomatch hcopy
  have hcreate : listSetDupMethod (listCreate m copy) copy r.dup
      = some (m.setList copy ⟨none, none, s.dup, 0⟩) := by
    simp [listSetDupMethod, listCreate, Memory.setList, hdup]
  have horig : update q copy (some ⟨s.dup, []⟩) orig = some ⟨s.dup, [] ++ s.nodes⟩ := by
    rw [update_of_ne hne, hq, List.nil_append]
  obtain ⟨m', hm', hr⟩ := dupLoop_refines hne (h.clear copy s.dup) horig (update_self _ _ _)
    haddrs hfresh hlen
  refine ⟨m', ?_, ?_⟩
  · rw [listDup, hl, Option.bind_some, hcreate, Option.bind_some, hdup, hst.linked.head_eq, hm']
  · rwa [dupResult, update_idem] at hr

/-! ### Every call -/

theorem Refines.exists_of_isSome (h : Refines m q) (hl : (m.list l).isSome) :
    ∃ s, q l = some s := by
  obtain ⟨r, hr⟩ := Option.isSome_iff_exists.mp hl
  obtain ⟨xs, hxs, -⟩ := h.stores l r hr
  exact ⟨_, hxs⟩

theorem Refines.exists_of_has (h : Refines m q) (hb : m.Has l b) :
    ∃ s, q l = some s ∧ b ∈ keys s.nodes := by
  cases hl : m.list l with
  | none => simp [Memory.Has, Memory.forward, hl] at hb
  | some r =>
    obtain ⟨xs, hxs, hst⟩ := h.stores l r hl
    rw [Memory.Has, hst.forward hl] at hb
    exact ⟨_, hxs, hb⟩

/-- A call that changes one list. -/
theorem Refines.step_edit {f : List (ℕ × α) → List (ℕ × α)} {x : Option (Memory α)}
    (h : Refines m q) (hq : q l = some s)
    (hop : ∀ r, m.list l = some r → Stores m r s.nodes → ∃ m', x = some m' ∧
      Edits m m' l r s.nodes (f s.nodes)) :
    ∃ m', x.map (·, (Answer.done : Answer α)) = some (m', .done) ∧ Refines m' (q.change l f) := by
  obtain ⟨r, hl, hdup, hst⟩ := h.lookup hq
  obtain ⟨m', hm', he⟩ := hop r hl hst
  exact ⟨m', by rw [hm']; rfl, h.edit_change (by rw [hq, hdup]) he⟩

theorem step_refines (m : Memory α) (q : Sequences α) (c : Call α) (h : Refines m q)
    (hc : Allowed m c) :
    ∃ m', step m c = some (m', (spec q c).2) ∧ Refines m' (spec q c).1 := by
  cases c with
  | listCreate l => exact ⟨_, rfl, h.clear l none⟩
  | listSetDupMethod l dup =>
    obtain ⟨s, hs⟩ := h.exists_of_isSome hc
    obtain ⟨m', hm', hr⟩ := listSetDupMethod_refines h hs dup
    refine ⟨m', by rw [step, hm']; rfl, ?_⟩
    rwa [spec, hs]
  | listAddNodeHead l node value =>
    obtain ⟨s, hs⟩ := h.exists_of_isSome hc.1
    exact h.step_edit (f := ((node, value) :: ·)) hs fun r hl hst =>
      listAddNodeHead_edits hst hl (Option.isNone_iff_eq_none.mp hc.2)
  | listAddNodeTail l node value =>
    obtain ⟨s, hs⟩ := h.exists_of_isSome hc.1
    exact h.step_edit (f := (· ++ [(node, value)])) hs fun r hl hst =>
      listAddNodeTail_edits hst hl (Option.isNone_iff_eq_none.mp hc.2)
  | listInsertNode l oldNode node value after =>
    obtain ⟨s, hs, hb⟩ := h.exists_of_has hc.1
    exact h.step_edit (f := insertBeside oldNode (node, value) after) hs fun r hl hst =>
      listInsertNode_edits hst hl hb (Option.isNone_iff_eq_none.mp hc.2) after
  | listDelNode l node =>
    obtain ⟨s, hs, hb⟩ := h.exists_of_has hc
    exact h.step_edit (f := (·.filter (·.1 ≠ node))) hs fun r hl hst => listDelNode_edits hst hl hb
  | listRotate l =>
    obtain ⟨s, hs⟩ := h.exists_of_isSome hc
    exact h.step_edit (f := rotated) hs fun r hl hst => listRotate_edits hst hl
  | listJoin l o =>
    obtain ⟨hl, ho, hne⟩ := hc
    obtain ⟨s, hs⟩ := h.exists_of_isSome hl
    obtain ⟨t, ht⟩ := h.exists_of_isSome ho
    obtain ⟨m', hm', hr⟩ := listJoin_refines h hs ht hne
    refine ⟨m', by rw [step, hm']; rfl, ?_⟩
    have hspec : (spec q (.listJoin l o)).1 =
        update (update q o (some ⟨t.dup, []⟩)) l (some ⟨s.dup, s.nodes ++ t.nodes⟩) := by
      simp [spec, Sequences.change, Sequences.nodes, hs, ht, update_of_ne (Ne.symm hne),
        update_comm hne]
    rwa [hspec]
  | listDup orig copy addrs =>
    obtain ⟨horig, hcopy, haddrs, hfresh, hlen⟩ := hc
    rw [Option.isNone_iff_eq_none] at hcopy
    obtain ⟨s, hs⟩ := h.exists_of_isSome horig
    obtain ⟨r, hl, -, hst⟩ := h.lookup hs
    have hlen' : s.nodes.length ≤ addrs.length := hst.len ▸ hlen r hl
    obtain ⟨m', hm', hr⟩ := listDup_refines h hs hcopy haddrs
      (fun a ha => Option.isNone_iff_eq_none.mp (hfresh a ha)) hlen'
    refine ⟨m', ?_, ?_⟩
    · rw [step, hm', spec, hs, Option.bind_some]
      cases dupValues s.dup s.nodes <;> rfl
    · rw [spec, hs, Option.bind_some]
      cases hv : dupValues s.dup s.nodes with
      | none =>
        rw [hv] at hr
        rwa [dupResult, Option.map_none, ← h.absent copy hcopy, update_eq_self] at hr
      | some vs =>
        rw [hv] at hr
        exact hr
  | listEmpty l =>
    obtain ⟨s, hs⟩ := h.exists_of_isSome hc
    exact h.step_edit (f := fun _ => []) hs fun r hl hst => listEmpty_edits hst hl
  | listRelease l =>
    obtain ⟨s, hs⟩ := h.exists_of_isSome hc
    obtain ⟨m', hm', hr⟩ := listRelease_refines h hs
    exact ⟨m', by rw [step, hm']; rfl, hr⟩
  | listIndex l index =>
    obtain ⟨s, hs⟩ := h.exists_of_isSome hc
    obtain ⟨r, hl, -, hst⟩ := h.lookup hs
    refine ⟨m, ?_, h⟩
    rw [step, hst.listIndex hl, spec, Sequences.nodes, hs]
    rfl
  | iterate l direction deletes =>
    obtain ⟨s, hs⟩ := h.exists_of_isSome hc
    obtain ⟨m', hm', hr⟩ := iterate_refines deletes h hs
    refine ⟨m', ?_, ?_⟩
    · rw [step, hm', spec, Sequences.nodes, hs]
      rfl
    · rw [spec, Sequences.change, hs]
      exact hr

/-- What the lists in memory show of the sequences. -/
structure Shows (m : Memory α) (q : Sequences α) : Prop where
  absent : ∀ l, q l = none → m.list l = none
  forward : ∀ l s, q l = some s → m.forward l = some s.nodes
  backward : ∀ l s, q l = some s → m.backward l = some s.nodes.reverse
  len : ∀ l s, q l = some s → ∃ r, m.list l = some r ∧ r.len = s.nodes.length
  listIndex : ∀ l s index, q l = some s → listIndex m l index = some (atIndex s.nodes index)

theorem Refines.shows (h : Refines m q) : Shows m q := by
  refine ⟨fun l hq => ?_, fun l s hq => ?_, fun l s hq => ?_, fun l s hq => ?_,
    fun l s index hq => ?_⟩
  · cases hl : m.list l with
    | none => rfl
    | some r =>
      obtain ⟨xs, hxs, -⟩ := h.stores l r hl
      exact nomatch hq.symm.trans hxs
  all_goals obtain ⟨r, hl, -, hst⟩ := h.lookup hq
  · exact hst.forward hl
  · exact hst.backward hl
  · exact ⟨r, hl, hst.len⟩
  · exact hst.listIndex hl index

/-- **The lists refine sequences**: whatever the calls are that their callers may make, they
answer as the sequences do, and the lists show the sequences along both pointers. -/
theorem lists_refine_sequences (calls : List (Call α))
    (h : Runs.Meets step Allowed Memory.empty calls) :
    ∃ m, Runs.run step Memory.empty calls = some (m, (Runs.specRun spec (fun _ => none) calls).2) ∧
      Shows m (Runs.specRun spec (fun _ => none) calls).1 := by
  obtain ⟨m, hrun, hr⟩ := Runs.run_simulates step_refines refines_empty h
  exact ⟨m, hrun, hr.shows⟩

/-- Two lists are built, joined, copied, rotated and walked with deletions. -/
def sampleCalls : List (Call ℕ) :=
  [.listCreate 0, .listCreate 1, .listAddNodeTail 0 10 100, .listAddNodeHead 0 11 101,
    .listInsertNode 0 11 12 102 true, .listAddNodeTail 1 13 103, .listJoin 0 1,
      .listDup 0 2 [20, 21, 22, 23],
    .listRotate 0, .iterate 0 .startTail (· ≤ 11), .listDelNode 0 13, .listIndex 2 (-2),
    .iterate 2 .startHead fun _ => true, .listEmpty 0]

theorem lists_refine_sequences_sample :
    ∃ m, Runs.run step Memory.empty sampleCalls =
        some (m, (Runs.specRun spec (fun _ => none) sampleCalls).2) ∧
      Shows m (Runs.specRun spec (fun _ => none) sampleCalls).1 :=
  lists_refine_sequences sampleCalls (by decide +kernel)

/-- The answers of the calls. -/
example : (Runs.specRun spec (fun _ => none) sampleCalls).2 =
    [.done, .done, .done, .done, .done, .done, .done, .copied true, .done,
      .visited [(10, 100), (12, 102), (11, 101), (13, 103)], .done, .node (some 22),
      .visited [(20, 101), (21, 102), (22, 100), (23, 103)], .done] := by decide

end ListMemory
