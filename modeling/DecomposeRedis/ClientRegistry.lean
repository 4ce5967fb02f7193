/-
The registry of the clients (networking.c, `linkClient`, `createClient`, `unlinkClient`,
`freeClient` and `lookupClientByID`).

A client with a socket is linked in `server.clients`, a list in which it remembers its
own node, and in `server.clients_index`, a radix tree from the 8 bytes of its id to the
client.  Only what these functions read and write is modelled: `connected` is
`fd != -1`, and the flags that `freeClient` looks at are given with the call.

The invariant (`Consistent`) says that both hold exactly the linked clients; that the
radix tree is a finite map (`Rax.exec_refines`) is all that is used of it.
-/
import DecomposeRedis.RaxRefine
import DecomposeRedis.NodeList

open Adlist Rax

namespace ClientRegistry

/-! ### Keys -/

/-- The last `k` bytes of a number, the highest one first. -/
def bigEndian : ℕ → ℕ → List UInt8
  | 0, _ => []
  | k + 1, n => bigEndian k (n / 256) ++ [UInt8.ofNat n]

theorem length_bigEndian (k n : ℕ) : (bigEndian k n).length = k := by
  induction k generalizing n with
  | zero => rfl
  | succ k ih => rw [bigEndian, List.length_append, ih, List.length_singleton]

theorem bigEndian_inj {k n m : ℕ} (hn : n < 256 ^ k) (hm : m < 256 ^ k)
    (h : bigEndian k n = bigEndian k m) : n = m := by
  induction k generalizing n m with
  | zero => omega
  | succ k ih =>
    obtain ⟨hhigh, hlow⟩ := List.append_inj h (by rw [length_bigEndian, length_bigEndian])
    have hdiv := ih (Nat.div_lt_of_lt_mul (by rwa [pow_succ'] at hn))
      (Nat.div_lt_of_lt_mul (by rwa [pow_succ'] at hm)) hhigh
    have hmod := congrArg UInt8.toNat (List.singleton_inj.mp hlow)
    rw [UInt8.toNat_ofNat', UInt8.toNat_ofNat'] at hmod
    omega

/-- The 8 bytes of an id in network order: `htonu64` and the cast to bytes. -/
def idKey (id : ℕ) : Key := bigEndian 8 id

theorem idKey_inj {id id' : ℕ} (h : id < 2 ^ 64) (h' : id' < 2 ^ 64) (heq : idKey id = idKey id') :
    id = id' :=
  bigEndian_inj (by omega) (by omega) heq

/-! ### The registry -/

/-- A client, as far as the registry is concerned. -/
structure RegClient where
  id : ℕ
  connected : Bool
  listNode : Option ℕ
  deriving DecidableEq

/-- `server.clients`, `server.clients_index` and `server.next_client_id`, and the clients
in memory: a pointer to a client stands for the client, and the memory of a freed one
is not used again. -/
structure Registry where
  clients : NodeList ℕ
  index : RaxTree ℕ
  nextClientId : ℕ
  memory : ℕ → Option RegClient
  fresh : ℕ

/-- The server after it was started. -/
def Registry.start : Registry where
  clients := listCreate
  index := raxNew
  nextClientId := 0
  memory := fun _ => none
  fresh := 0

/-- `linkClient` -/
def linkClient (r : Registry) (p : ℕ) (a : Allocs) : Option Registry := do
  let c ← r.memory p
  let clients := listAddNodeTail r.clients p
  let node := (listLast clients).map Prod.fst
  let inserted ← raxInsert r.index (idKey c.id) (some p) a
  some { r with
    clients := clients
    index := inserted.rax
    memory := Function.update r.memory p (some { c with listNode := node }) }

/-- `createClient`, where `handler` tells whether `aeCreateFileEvent` succeeds for the
socket.  It returns the client, or NULL. -/
def createClient (r : Registry) (connected handler : Bool) (a : Allocs) :
    Option (Registry × Option ℕ) :=
  if connected && !handler then some (r, none)
  else
    let p := r.fresh
    let id := (r.nextClientId + 1) % 2 ^ 64
    let r := { r with
      nextClientId := id
      memory := Function.update r.memory p (some ⟨id, connected, none⟩)
      fresh := p + 1 }
    if connected then (linkClient r p a).map (·, some p) else some (r, some p)

/-- `unlinkClient` -/
def unlinkClient (r : Registry) (p : ℕ) (a : Allocs) : Option Registry := do
  let c ← r.memory p
  if c.connected then
    match c.listNode with
    | some node =>
      let removed ← raxRemove r.index (idKey c.id) a
      let clients ← listDelNode r.clients node
      some { r with
        clients := clients
        index := removed.rax
        memory := Function.update r.memory p (some { c with
          listNode := none, connected := false }) }
    | none =>
      some { r with memory := Function.update r.memory p (some { c with connected := false }) }
  else some r

/-- What `freeClient` looks at: `CLIENT_PROTECTED`, and whether the client is the master
whose state is to be cached. -/
inductive FreeKind where
  | isProtected
  | cachedMaster
  | plain
  deriving DecidableEq

/-- `freeClient`.  A protected client is only scheduled for closing, and
`replicationCacheMaster` unlinks the master and keeps it. -/
def freeClient (r : Registry) (p : ℕ) (kind : FreeKind) (a : Allocs) : Option Registry :=
  match kind with
  | .isProtected => (r.memory p).map fun _ => r
  | .cachedMaster => unlinkClient r p a
  | .plain => (unlinkClient r p a).map fun r => { r with memory := Function.update r.memory p none }

/-- `lookupClientByID` -/
def lookupClientByID (r : Registry) (id : ℕ) (a : Allocs) : Option (Option ℕ) :=
  (raxFind r.index (idKey id) a).map fun
    | .raxNotFound => none
    | .stored p => p

/-! ### The invariant -/

/-- The index maps exactly the ids of the linked clients to them. -/
def Indexes (m : RefMap ℕ) (memory : ℕ → Option RegClient) : Prop :=
  ∀ k d, m.lookup k = some d ↔
    ∃ p c, memory p = some c ∧ c.listNode ≠ none ∧ k = idKey c.id ∧ d = some p

/-- **The registry is consistent.** -/
structure Consistent (r : Registry) : Prop where
  nodes : ∀ n p, (n, p) ∈ r.clients.nodes ↔ ∃ c, r.memory p = some c ∧ c.listNode = some n
  connected : ∀ p c, r.memory p = some c → c.listNode ≠ none → c.connected = true
  ids : ∀ p q c d, r.memory p = some c → r.memory q = some d → c.id = d.id → p = q
  id_le : ∀ p c, r.memory p = some c → c.id ≤ r.nextClientId
  id_lt : r.nextClientId < 2 ^ 64
  lt_fresh : ∀ p c, r.memory p = some c → p < r.fresh
  index : ∃ m, Refines r.index m ∧ Indexes m r.memory

variable {r : Registry} {p : ℕ} {c : RegClient} {a : Allocs} {m : RefMap ℕ} {t : Roster}

theorem consistent_start : Consistent .start where
  nodes _ _ := ⟨nofun, nofun⟩
  connected := nofun
  ids := nofun
  id_le := nofun
  id_lt := by decide
  lt_fresh := nofun
  index := ⟨∅, refines_raxNew, fun _ _ => ⟨nofun, nofun⟩⟩

/-- The list holds the linked clients. -/
theorem Consistent.mem_values (h : Consistent r) :
    p ∈ r.clients.values ↔ ∃ c, r.memory p = some c ∧ c.listNode ≠ none := by
  rw [NodeList.values, List.mem_map]
  constructor
  · rintro ⟨⟨n, q⟩, hmem, rfl⟩
    obtain ⟨c, hc, hn⟩ := (h.nodes n q).mp hmem
    exact ⟨c, hc, by rw [hn]; rintro ⟨⟩⟩
  · rintro ⟨c, hc, hlinked⟩
    obtain ⟨n, hn⟩ := Option.ne_none_iff_exists'.mp hlinked
    exact ⟨(n, p), (h.nodes n p).mpr ⟨c, hc, hn⟩, rfl⟩

/-- Each of them once. -/
theorem Consistent.nodup_values (h : Consistent r) : r.clients.values.Nodup := by
  refine List.Nodup.map_on ?_ (List.Nodup.of_map Prod.fst r.clients.nodup)
  rintro ⟨n, p⟩ hn ⟨n', p'⟩ hn' (rfl : p = p')
  obtain ⟨c, hc, hnode⟩ := (h.nodes n p).mp hn
  obtain ⟨c', hc', hnode'⟩ := (h.nodes n' p).mp hn'
  obtain rfl := Option.some.inj (hc.symm.trans hc')
  rw [Option.some.inj (hnode.symm.trans hnode')]

theorem Consistent.idKey_inj (h : Consistent r) {q : ℕ} {d : RegClient} (hp : r.memory p = some c)
    (hq : r.memory q = some d) (heq : idKey c.id = idKey d.id) : p = q :=
  h.ids p q c d hp hq (ClientRegistry.idKey_inj ((h.id_le p c hp).trans_lt h.id_lt)
    ((h.id_le q d hq).trans_lt h.id_lt) heq)

theorem length_idKey_le (id : ℕ) : (idKey id).length ≤ raxNodeMaxSize := by
  rw [idKey, length_bigEndian]
  decide

/-! ### The calls -/

/-- What is in memory after a client was changed. -/
theorem update_eq_some {memory : ℕ → Option RegClient} {x : Option RegClient} {q : ℕ}
    {d : RegClient} :
    Function.update memory p x q = some d ↔ q = p ∧ x = some d ∨ q ≠ p ∧ memory q = some d := by
  by_cases hq : q = p
  · subst hq
    simp
  · simp [hq]

/-- `raxInsert` in the index. -/
theorem raxInsert_refines {t : RaxTree ℕ} (h : Refines t m) (ha : NoFail a) (id : ℕ)
    (d : Option ℕ) :
    ∃ res, raxInsert t (idKey id) d a = some res ∧ Refines res.rax (m.insert (idKey id) d) := by
  obtain ⟨t', hrun, ht'⟩ := exec_refines h (.raxInsert (idKey id) d, a) ha (length_idKey_le id)
  obtain ⟨res, hres, heq⟩ := Option.map_eq_some_iff.mp hrun
  refine ⟨res, hres, ?_⟩
  rw [(Prod.mk.inj heq).1]
  simp only [spec] at ht'
  split at ht' <;> exact ht'

/-- `raxRemove` in the index, of a key that is there. -/
theorem raxRemove_refines {t : RaxTree ℕ} (h : Refines t m) (ha : NoFail a) {id : ℕ}
    {d : Option ℕ} (hd : m.lookup (idKey id) = some d) :
    ∃ res, raxRemove t (idKey id) a = some res ∧ Refines res.rax (m.erase (idKey id)) := by
  obtain ⟨t', hrun, ht'⟩ := exec_refines h (.raxRemove (idKey id), a) ha (length_idKey_le id)
  obtain ⟨res, hres, heq⟩ := Option.map_eq_some_iff.mp hrun
  refine ⟨res, hres, ?_⟩
  rw [(Prod.mk.inj heq).1]
  simp only [spec, hd] at ht'
  exact ht'

/-- The entry of a client in the index. -/
theorem Consistent.lookup_idKey (h : Consistent r) (hc : r.memory p = some c)
    (hm : Indexes m r.memory) (d : Option ℕ) :
    m.lookup (idKey c.id) = some d ↔ c.listNode ≠ none ∧ d = some p := by
  rw [hm]
  constructor
  · rintro ⟨q, e, hq, hlinked, hkey, hd⟩
    obtain rfl := h.idKey_inj hc hq hkey
    obtain rfl := Option.some.inj (hc.symm.trans hq)
    exact ⟨hlinked, hd⟩
  · rintro ⟨hlinked, hd⟩
    exact ⟨p, c, hc, hlinked, rfl, hd⟩

/-- One client is changed, in memory, in the list and in the index. -/
theorem Consistent.change (h : Consistent r) (hc : r.memory p = some c) (c' : RegClient)
    (hid : c'.id = c.id) (hconn : c'.listNode ≠ none → c'.connected = true) {clients : NodeList ℕ}
    (hnodes : ∀ n q, (n, q) ∈ clients.nodes ↔
      q = p ∧ c'.listNode = some n ∨ q ≠ p ∧ (n, q) ∈ r.clients.nodes)
    {index : RaxTree ℕ} {m' : RefMap ℕ} (hm : Indexes m r.memory) (hm' : Refines index m')
    (hlookup : ∀ k d, m'.lookup k = some d ↔
      k = idKey c.id ∧ c'.listNode ≠ none ∧ d = some p ∨ k ≠ idKey c.id ∧ m.lookup k = some d) :
    Consistent { r with
      clients := clients
      index := index
      memory := Function.update r.memory p (some c') } := by
  have hold : ∀ {q d}, Function.update r.memory p (some c') q = some d →
      ∃ e, r.memory q = some e ∧ e.id = d.id := by
    intro q d hq
    rcases update_eq_some.mp hq with ⟨rfl, hd⟩ | ⟨-, hd⟩
    · obtain rfl := Option.some.inj hd
      exact ⟨c, hc, hid.symm⟩
    · exact ⟨d, hd, rfl⟩
  constructor
  case nodes =>
    intro n q
    rw [hnodes, h.nodes]
    simp only [update_eq_some, Option.some.injEq]
    constructor
    · rintro (⟨rfl, hn⟩ | ⟨hq, e, he, hn⟩)
      · exact ⟨c', .inl ⟨rfl, rfl⟩, hn⟩
      · exact ⟨e, .inr ⟨hq, he⟩, hn⟩
    · rintro ⟨e, ⟨hq, rfl⟩ | ⟨hq, he⟩, hn⟩
      · exact .inl ⟨hq, hn⟩
      · exact .inr ⟨hq, e, he, hn⟩
  case connected =>
    intro q d hq hlinked
    rcases update_eq_some.mp hq with ⟨-, hd⟩ | ⟨-, hd⟩
    · obtain rfl := Option.some.inj hd
      exact hconn hlinked
    · exact h.connected q d hd hlinked
  case ids =>
    intro q q' d d' hq hq' heq
    obtain ⟨e, he, hide⟩ := hold hq
    obtain ⟨e', he', hide'⟩ := hold hq'
    exact h.ids q q' e e' he he' (by rw [hide, hide', heq])
  case id_le =>
    intro q d hq
    obtain ⟨e, he, hide⟩ := hold hq
    exact hide ▸ h.id_le q e he
  case id_lt => exact h.id_lt
  case lt_fresh =>
    intro q d hq
    obtain ⟨e, he, -⟩ := hold hq
    exact h.lt_fresh q e he
  case index =>
    refine ⟨m', hm', fun k d => ?_⟩
    rw [hlookup, hm]
    simp only [update_eq_some, Option.some.injEq]
    constructor
    · rintro (⟨rfl, hlinked, rfl⟩ | ⟨hk, q, e, he, hlinked, rfl, rfl⟩)
      · exact ⟨p, c', .inl ⟨rfl, rfl⟩, hlinked, by rw [hid], rfl⟩
      · refine ⟨q, e, .inr ⟨?_, he⟩, hlinked, rfl, rfl⟩
        rintro rfl
        obtain rfl := Option.some.inj (hc.symm.trans he)
        exact hk rfl
    · rintro ⟨q, e, ⟨rfl, rfl⟩ | ⟨hq, he⟩, hlinked, rfl, rfl⟩
      · exact .inl ⟨by rw [hid], hlinked, rfl⟩
      · refine .inr ⟨fun hkey => hq (h.idKey_inj he hc hkey), q, e, he, hlinked, rfl, rfl⟩

/-- A client is changed that stays linked, or not linked. -/
theorem Consistent.touch (h : Consistent r) (hc : r.memory p = some c) (c' : RegClient)
    (hid : c'.id = c.id) (hnode : c'.listNode = c.listNode)
    (hconn : c'.listNode ≠ none → c'.connected = true) :
    Consistent { r with memory := Function.update r.memory p (some c') } := by
  obtain ⟨m, hm, hidx⟩ := h.index
  refine h.change hc c' hid hconn (fun n q => ?_) hidx hm fun k d => ?_
  · by_cases hq : q = p
    · subst hq
      rw [h.nodes, hnode]
      constructor
      · rintro ⟨e, he, hn⟩
        obtain rfl := Option.some.inj (hc.symm.trans he)
        exact .inl ⟨rfl, hn⟩
      · rintro (⟨-, hn⟩ | ⟨hne, -⟩)
        · exact ⟨c, hc, hn⟩
        · exact absurd rfl hne
    · simp [hq]
  · by_cases hk : k = idKey c.id
    · rw [hk, h.lookup_idKey hc hidx, hnode]
      simp
    · simp [hk]

theorem linkClient_consistent (h : Consistent r) (hc : r.memory p = some c)
    (hconn : c.connected = true) (hlink : c.listNode = none) (ha : NoFail a) :
    ∃ r', linkClient r p a = some r' ∧ Consistent r' ∧ r'.clients.values = r.clients.values ++ [p]
      ∧ r'.fresh = r.fresh := by
  obtain ⟨m, hm, hidx⟩ := h.index
  obtain ⟨res, hres, hrefines⟩ := raxInsert_refines hm ha c.id (some p)
  have hrun : linkClient r p a = some { r with
      clients := listAddNodeTail r.clients p
      index := res.rax
      memory := Function.update r.memory p (some { c with
        listNode := some r.clients.fresh }) } := by
    rw [linkClient, hc]
    simp only [Option.bind_eq_bind, Option.bind_some, hres, listLast_listAddNodeTail,
      Option.map_some]
  refine ⟨_, hrun, h.change hc { c with listNode := some r.clients.fresh } rfl (fun _ => hconn)
    (fun n q => ?_)
    hidx hrefines fun k d => ?_, List.map_append, rfl⟩
  · -- the client was not in the list before
    have hnot : ∀ n', (n', p) ∉ r.clients.nodes := by
      intro n' hn'
      obtain ⟨e, he, hnode⟩ := (h.nodes n' p).mp hn'
      obtain rfl := Option.some.inj (hc.symm.trans he)
      rw [hlink] at hnode
      cases hnode
    rw [nodes_listAddNodeTail, List.mem_append, List.mem_singleton, Prod.mk.injEq]
    constructor
    · rintro (hmem | ⟨rfl, rfl⟩)
      · refine .inr ⟨?_, hmem⟩
        rintro rfl
        exact hnot n hmem
      · exact .inl ⟨rfl, rfl⟩
    · rintro (⟨rfl, hn⟩ | ⟨-, hmem⟩)
      · exact .inr ⟨(Option.some.inj hn).symm, rfl⟩
      · exact .inl hmem
  · rw [lookup_insert_eq]
    by_cases hk : k = idKey c.id
    · simp [hk, eq_comm]
    · simp [hk]

theorem unlinkClient_consistent (h : Consistent r) (hc : r.memory p = some c) (ha : NoFail a) :
    ∃ r' c', unlinkClient r p a = some r' ∧ Consistent r'
      ∧ r'.clients.values = r.clients.values.filter (· ≠ p) ∧ r'.fresh = r.fresh
      ∧ r'.memory p = some c' ∧ c'.listNode = none := by
  have hunlinked : c.listNode = none → r.clients.values = r.clients.values.filter (· ≠ p) := by
    intro hnode
    refine (List.filter_eq_self.mpr fun q hq => decide_eq_true ?_).symm
    rintro rfl
    obtain ⟨d, hd, hlinked⟩ := h.mem_values.mp hq
    obtain rfl := Option.some.inj (hc.symm.trans hd)
    exact hlinked hnode
  by_cases hconn : c.connected = true
  case neg =>
    -- a client without a socket is not linked
    have hnode : c.listNode = none := by
      by_contra hlinked
      exact hconn (h.connected p c hc hlinked)
    refine ⟨r, c, ?_, h, hunlinked hnode, rfl, hc, hnode⟩
    rw [unlinkClient, hc]
    simp [hconn]
  rcases hnode : c.listNode with _ | n
  · refine ⟨_, _, ?_, h.touch hc { c with connected := false } rfl rfl
      (fun hlinked => absurd hnode hlinked),
      hunlinked hnode, rfl, Function.update_self _ _ _, hnode⟩
    rw [unlinkClient, hc]
    simp [hconn, hnode]
  · obtain ⟨m, hm, hidx⟩ := h.index
    have hmem : (n, p) ∈ r.clients.nodes := (h.nodes n p).mpr ⟨c, hc, hnode⟩
    have hentry := (h.lookup_idKey hc hidx (some p)).mpr ⟨by rw [hnode]; exact nofun, rfl⟩
    obtain ⟨res, hres, hrefines⟩ := raxRemove_refines hm ha hentry
    have hrun : unlinkClient r p a = some { r with
        clients := r.clients.without n
        index := res.rax
        memory := Function.update r.memory p (some { c with
          listNode := none, connected := false }) } := by
      rw [unlinkClient, hc]
      simp [hconn, hnode, hres, listDelNode_of_mem hmem]
    refine ⟨_, _, hrun, h.change hc { c with listNode := none, connected := false } rfl
      (fun hlinked => absurd rfl hlinked) (fun n' q => ?_) hidx hrefines fun k d => ?_, ?_, rfl,
      Function.update_self _ _ _, rfl⟩
    · rw [nodes_without, List.mem_filter, decide_eq_true_eq]
      constructor
      · rintro ⟨hmem', hne⟩
        refine .inr ⟨?_, hmem'⟩
        rintro rfl
        obtain ⟨e, he, hn⟩ := (h.nodes n' q).mp hmem'
        obtain rfl := Option.some.inj (hc.symm.trans he)
        exact hne (Option.some.inj (hn.symm.trans hnode))
      · rintro (⟨-, hn⟩ | ⟨hq, hmem'⟩)
        · cases hn
        · refine ⟨hmem', ?_⟩
          rintro rfl
          exact hq (r.clients.value_unique hmem' hmem)
    · rw [lookup_erase_eq]
      by_cases hk : k = idKey c.id
      · simp [hk]
      · simp [hk]
    · rw [NodeList.values, nodes_without, NodeList.values, List.filter_map]
      refine congrArg _ (List.filter_congr fun x hx => decide_eq_decide.mpr (not_congr ⟨?_, ?_⟩))
      · rintro rfl
        exact r.clients.value_unique hx hmem
      · rintro rfl
        obtain ⟨e, he, hn⟩ := (h.nodes x.1 x.2).mp hx
        obtain rfl := Option.some.inj (hc.symm.trans he)
        exact Option.some.inj (hn.symm.trans hnode)

/-- The list and the index only depend on the linked clients. -/
theorem Consistent.of_linked (h : Consistent r) (memory : ℕ → Option RegClient)
    (heq : ∀ q d, d.listNode ≠ none → (memory q = some d ↔ r.memory q = some d)) :
    (∀ n q, (n, q) ∈ r.clients.nodes ↔ ∃ d, memory q = some d ∧ d.listNode = some n)
      ∧ ∃ m, Refines r.index m ∧ Indexes m memory := by
  refine ⟨fun n q => ?_, ?_⟩
  · rw [h.nodes]
    refine exists_congr fun d => and_congr_left fun hn => (heq q d ?_).symm
    rw [hn]
    exact nofun
  · obtain ⟨m, hm, hidx⟩ := h.index
    refine ⟨m, hm, fun k d => ?_⟩
    rw [hidx]
    refine exists_congr fun q => exists_congr fun e => ?_
    constructor
    · rintro ⟨he, hlinked, hrest⟩
      exact ⟨(heq q e hlinked).mpr he, hlinked, hrest⟩
    · rintro ⟨he, hlinked, hrest⟩
      exact ⟨(heq q e hlinked).mp he, hlinked, hrest⟩

/-- A new client, which is not linked yet. -/
theorem Consistent.create (h : Consistent r) (connected : Bool)
    (hid : r.nextClientId + 1 < 2 ^ 64) :
    Consistent { r with
      nextClientId := r.nextClientId + 1
      memory := Function.update r.memory r.fresh (some ⟨r.nextClientId + 1, connected, none⟩)
      fresh := r.fresh + 1 } := by
  have hnew : ∀ {q d}, Function.update r.memory r.fresh (some ⟨r.nextClientId + 1, connected, none⟩)
      q = some d →
      q = r.fresh ∧ d = ⟨r.nextClientId + 1, connected, none⟩
        ∨ q < r.fresh ∧ d.id ≤ r.nextClientId ∧ r.memory q = some d := by
    intro q d hq
    rcases update_eq_some.mp hq with ⟨rfl, hd⟩ | ⟨-, hd⟩
    · exact .inl ⟨rfl, (Option.some.inj hd).symm⟩
    · exact .inr ⟨h.lt_fresh q d hd, h.id_le q d hd, hd⟩
  obtain ⟨hnodes, hindex⟩ := h.of_linked
    (Function.update r.memory r.fresh (some ⟨r.nextClientId + 1, connected, none⟩)) (by
      intro q d hlinked
      constructor
      · intro hq
        rcases hnew hq with ⟨-, rfl⟩ | ⟨-, -, hd⟩
        · exact absurd rfl hlinked
        · exact hd
      · intro hd
        rw [Function.update_of_ne (h.lt_fresh q d hd).ne]
        exact hd)
  refine ⟨hnodes, ?_, ?_, ?_, hid, ?_, hindex⟩
  · intro q d hq hlinked
    rcases hnew hq with ⟨-, rfl⟩ | ⟨-, -, hd⟩
    · exact absurd rfl hlinked
    · exact h.connected q d hd hlinked
  · intro q q' d d' hq hq' heq
    rcases hnew hq with ⟨rfl, rfl⟩ | ⟨hlt, hle, hd⟩ <;> rcases hnew hq' with ⟨rfl, rfl⟩ |
      ⟨hlt', hle', hd'⟩
    · rfl
    · exact absurd heq (by show r.nextClientId + 1 ≠ d'.id; omega)
    · exact absurd heq (by show d.id ≠ r.nextClientId + 1; omega)
    · exact h.ids q q' d d' hd hd' heq
  · intro q d hq
    rcases hnew hq with ⟨-, rfl⟩ | ⟨-, hle, -⟩
    · exact le_rfl
    · exact hle.trans (Nat.le_succ _)
  · intro q d hq
    rcases hnew hq with ⟨rfl, -⟩ | ⟨hlt, -, -⟩
    · exact Nat.lt_succ_self _
    · exact hlt.trans (Nat.lt_succ_self _)

/-- A client that is not linked is released. -/
theorem Consistent.release (h : Consistent r) (hc : r.memory p = some c)
    (hnode : c.listNode = none) :
    Consistent { r with memory := Function.update r.memory p none } := by
  have hold : ∀ {q d}, Function.update r.memory p none q = some d → q ≠ p ∧
      r.memory q = some d := by
    intro q d hq
    rcases update_eq_some.mp hq with ⟨-, hd⟩ | hd
    · cases hd
    · exact hd
  obtain ⟨hnodes, hindex⟩ := h.of_linked (Function.update r.memory p none) (by
    intro q d hlinked
    refine ⟨fun hq => (hold hq).2, fun hd => update_eq_some.mpr (.inr ⟨?_, hd⟩)⟩
    rintro rfl
    obtain rfl := Option.some.inj (hc.symm.trans hd)
    exact hlinked hnode)
  exact ⟨hnodes, fun q d hq => h.connected q d (hold hq).2,
    fun q q' d d' hq hq' => h.ids q q' d d' (hold hq).2 (hold hq').2,
    fun q d hq => h.id_le q d (hold hq).2, h.id_lt,
      fun q d hq => h.lt_fresh q d (hold hq).2, hindex⟩

/-! ### Runs -/

/-- The calls.  `reconnect` stands for what replication.c does with a cached master: it
gets a new socket before it is linked again. -/
inductive RegCall where
  | createClient (connected handler : Bool)
  | reconnect (p : ℕ)
  | linkClient (p : ℕ)
  | unlinkClient (p : ℕ)
  | freeClient (p : ℕ) (kind : FreeKind)

/-- A call, with the answers of the allocator during it; the output is what
`createClient` returns. -/
def regStep (r : Registry) (x : RegCall × Allocs) : Option (Registry × Option ℕ) :=
  match x.1 with
  | .createClient connected handler => createClient r connected handler x.2
  | .reconnect p => (r.memory p).map fun c =>
    ({ r with memory := Function.update r.memory p (some { c with connected := true }) }, none)
  | .linkClient p => (linkClient r p x.2).map (·, none)
  | .unlinkClient p => (unlinkClient r p x.2).map (·, none)
  | .freeClient p kind => (freeClient r p kind x.2).map (·, none)

/-- The calls are for clients that are there; there are ids left for new clients; and
only a client with a socket that is not linked is linked. -/
def Allowed (r : Registry) : RegCall → Prop
  | .createClient _ _ => r.nextClientId + 1 < 2 ^ 64
  | .linkClient p => ∃ c ∈ r.memory p, c.connected = true ∧ c.listNode = none
  | .reconnect p => (r.memory p).isSome
  | .unlinkClient p => (r.memory p).isSome
  | .freeClient p _ => (r.memory p).isSome

instance (r : Registry) : DecidablePred (Allowed r)
  | .createClient _ _ => inferInstanceAs (Decidable (_ < _))
  | .linkClient p => inferInstanceAs (Decidable (∃ c ∈ r.memory p, _ ∧ _))
  | .reconnect p => inferInstanceAs (Decidable ((r.memory p).isSome = true))
  | .unlinkClient p => inferInstanceAs (Decidable ((r.memory p).isSome = true))
  | .freeClient p _ => inferInstanceAs (Decidable ((r.memory p).isSome = true))

/-- Which clients are linked, in the order in which they were, and how many clients were
created: this is what the registry is there to know. -/
structure Roster where
  linked : List ℕ
  created : ℕ

def rosterStep (t : Roster) (x : RegCall × Allocs) : Roster × Option ℕ :=
  match x.1 with
  | .createClient connected handler =>
    if connected && !handler then (t, none)
    else (⟨if connected then t.linked ++ [t.created] else t.linked, t.created + 1⟩, some t.created)
  | .reconnect _ => (t, none)
  | .linkClient p => ({ t with linked := t.linked ++ [p] }, none)
  | .unlinkClient p => ({ t with linked := t.linked.filter (· ≠ p) }, none)
  | .freeClient _ .isProtected => (t, none)
  | .freeClient p _ => ({ t with linked := t.linked.filter (· ≠ p) }, none)

/-- The registry knows it. -/
structure Knows (r : Registry) (t : Roster) : Prop extends Consistent r where
  linked : r.clients.values = t.linked
  created : r.fresh = t.created

theorem createClient_knows (h : Knows r t) (connected handler : Bool) (ha : NoFail a)
    (hid : r.nextClientId + 1 < 2 ^ 64) :
    ∃ r', createClient r connected handler a
        = some (r', (rosterStep t (.createClient connected handler, a)).2)
      ∧ Knows r' (rosterStep t (.createClient connected handler, a)).1 := by
  rw [createClient, rosterStep]
  by_cases hfail : (connected && !handler) = true
  · simp only [if_pos hfail]
    exact ⟨r, rfl, h⟩
  simp only [if_neg hfail, Nat.mod_eq_of_lt hid]
  have hnew := h.toConsistent.create connected hid
  by_cases hconn : connected = true
  · subst hconn
    obtain ⟨r', hrun, hr', hvalues, hfresh⟩ :=
      linkClient_consistent hnew (Function.update_self _ _ _) rfl rfl ha
    refine ⟨r', ?_, hr', ?_, ?_⟩
    · rw [if_pos rfl, hrun, h.created]
      rfl
    · rw [hvalues, if_pos rfl, ← h.linked, ← h.created]
    · rw [hfresh, ← h.created]
  · simp only [if_neg hconn, h.created]
    refine ⟨_, rfl, ?_, h.linked, rfl⟩
    rw [h.created] at hnew
    exact hnew

theorem freeClient_knows (h : Knows r t) (hc : r.memory p = some c) (kind : FreeKind)
    (ha : NoFail a) :
    ∃ r', freeClient r p kind a = some r' ∧ Knows r' (rosterStep t (.freeClient p kind, a)).1 := by
  obtain ⟨r', c', hrun, hr', hvalues, hfresh, hc', hnode⟩ :=
    unlinkClient_consistent h.toConsistent hc ha
  have hlinked : r'.clients.values = t.linked.filter (· ≠ p) := by rw [hvalues, h.linked]
  have hcreated : r'.fresh = t.created := by rw [hfresh, h.created]
  cases kind with
  | isProtected => exact ⟨r, by rw [freeClient, hc]; rfl, h⟩
  | cachedMaster => exact ⟨r', hrun, hr', hlinked, hcreated⟩
  | plain =>
    refine ⟨{ r' with memory := Function.update r'.memory p none }, ?_,
      hr'.release hc' hnode, hlinked, hcreated⟩
    rw [freeClient, hrun]
    rfl

/-- **A call** keeps the registry consistent. -/
theorem regStep_knows (h : Knows r t) (x : RegCall × Allocs) (ha : NoFail x.2)
    (hx : Allowed r x.1) :
    ∃ r', regStep r x = some (r', (rosterStep t x).2) ∧ Knows r' (rosterStep t x).1 := by
  obtain ⟨call, a⟩ := x
  cases call with
  | createClient connected handler => exact createClient_knows h connected handler ha hx
  | reconnect p =>
    obtain ⟨c, hc⟩ := Option.isSome_iff_exists.mp hx
    exact ⟨_, congrArg (Option.map _) hc, h.toConsistent.touch hc { c with
      connected := true } rfl rfl
      (fun _ => rfl), h.linked, h.created⟩
  | linkClient p =>
    obtain ⟨c, hc, hconn, hnode⟩ := hx
    obtain ⟨r', hrun, hr', hvalues, hfresh⟩ :=
      linkClient_consistent h.toConsistent hc hconn hnode ha
    refine ⟨r', congrArg (Option.map (·, none)) hrun, hr', ?_, ?_⟩
    · rw [hvalues, h.linked]
      rfl
    · rw [hfresh, h.created]
      rfl
  | unlinkClient p =>
    obtain ⟨c, hc⟩ := Option.isSome_iff_exists.mp hx
    obtain ⟨r', -, hrun, hr', hvalues, hfresh, -⟩ := unlinkClient_consistent h.toConsistent hc ha
    refine ⟨r', congrArg (Option.map (·, none)) hrun, hr', ?_, ?_⟩
    · rw [hvalues, h.linked]
      rfl
    · rw [hfresh, h.created]
      rfl
  | freeClient p kind =>
    obtain ⟨c, hc⟩ := Option.isSome_iff_exists.mp hx
    obtain ⟨r', hrun, hr'⟩ := freeClient_knows h hc kind ha
    have hout : (rosterStep t (.freeClient p kind, a)).2 = none := by
      cases kind <;> rfl
    rw [hout]
    exact ⟨r', congrArg (Option.map (·, none)) hrun, hr'⟩

theorem lookupClientByID_eq (h : Consistent r) {id : ℕ} (hid : id < 2 ^ 64) (a : Allocs) :
    ∃ x, lookupClientByID r id a = some x ∧
      ∀ p, x = some p ↔ ∃ c, r.memory p = some c ∧ c.listNode ≠ none ∧ c.id = id := by
  obtain ⟨m, hm, hidx⟩ := h.index
  rw [lookupClientByID, raxFind_eq_lookup hm.ok.nodes.shapes, hm.lookup]
  rcases hlookup : m.lookup (idKey id) with _ | d
  · refine ⟨none, rfl, fun p => ⟨nofun, ?_⟩⟩
    rintro ⟨c, hc, hlinked, rfl⟩
    have := (h.lookup_idKey hc hidx (some p)).mpr ⟨hlinked, rfl⟩
    cases hlookup.symm.trans this
  · obtain ⟨q, c, hc, hlinked, hkey, rfl⟩ := (hidx _ _).mp hlookup
    have hcid := idKey_inj hid ((h.id_le q c hc).trans_lt h.id_lt) hkey
    refine ⟨some q, rfl, fun p => ⟨?_, ?_⟩⟩
    · rintro hp
      obtain rfl := Option.some.inj hp
      exact ⟨c, hc, hlinked, hcid.symm⟩
    · rintro ⟨c', hc', -, rfl⟩
      rw [h.ids q p c c' hc hc' hcid.symm]

theorem knows_start : Knows .start ⟨[], 0⟩ := ⟨consistent_start, rfl, rfl⟩

/-- **The registry of the clients is consistent** after every run of allowed calls: the
list holds the linked clients in order and each of them once, the index maps exactly
their ids to them, ids are different, and a lookup finds the linked client with that id
or nothing. -/
theorem registry_consistent (calls : List (RegCall × Allocs))
    (hcalls : Runs.Meets regStep (fun r x => NoFail x.2 ∧ Allowed r x.1) .start calls) :
    ∃ r, Runs.run regStep .start calls = some (r, (Runs.specRun rosterStep ⟨[], 0⟩ calls).2)
      ∧ r.clients.values = (Runs.specRun rosterStep ⟨[], 0⟩ calls).1.linked
      ∧ r.clients.values.Nodup
      ∧ (∀ p ∈ r.clients.values, (r.memory p).isSome)
      ∧ (∀ k d, Rax.lookup r.index.head k = some d ↔
        ∃ p c, p ∈ r.clients.values ∧ r.memory p = some c ∧ k = idKey c.id ∧ d = some p)
      ∧ (∀ p q c d, r.memory p = some c → r.memory q = some d → c.id = d.id → p = q)
      ∧ ∀ id a, id < 2 ^ 64 → ∃ x, lookupClientByID r id a = some x ∧
          ∀ p, x = some p ↔ p ∈ r.clients.values ∧ ∃ c, r.memory p = some c ∧ c.id = id := by
  have hstep : ∀ r t x, Knows r t → (NoFail x.2 ∧ Allowed r x.1) →
      ∃ r', regStep r x = some (r', (rosterStep t x).2) ∧ Knows r' (rosterStep t x).1 :=
    fun r t x h hx => regStep_knows h x hx.1 hx.2
  obtain ⟨r, hrun, h⟩ := Runs.run_simulates hstep knows_start hcalls
  obtain ⟨m, hm, hidx⟩ := h.index
  have hlinked : ∀ {p c}, r.memory p = some c → (c.listNode ≠ none ↔ p ∈ r.clients.values) := by
    intro p c hc
    rw [h.mem_values]
    refine ⟨fun hnode => ⟨c, hc, hnode⟩, ?_⟩
    rintro ⟨d, hd, hnode⟩
    rwa [Option.some.inj (hc.symm.trans hd)]
  refine ⟨r, hrun, h.linked, h.nodup_values, fun p hp => ?_, fun k d => ?_, h.ids,
    fun id a hid => ?_⟩
  · obtain ⟨c, hc, -⟩ := h.mem_values.mp hp
    rw [hc]
    rfl
  · rw [hm.lookup, hidx]
    refine exists_congr fun p => exists_congr fun c => ⟨?_, ?_⟩
    · rintro ⟨hc, hnode, hk, hd⟩
      exact ⟨(hlinked hc).mp hnode, hc, hk, hd⟩
    · rintro ⟨hp, hc, hk, hd⟩
      exact ⟨hc, (hlinked hc).mpr hp, hk, hd⟩
  · obtain ⟨x, hx, hfind⟩ := lookupClientByID_eq h.toConsistent hid a
    refine ⟨x, hx, fun p => (hfind p).trans ⟨?_, ?_⟩⟩
    · rintro ⟨c, hc, hnode, hcid⟩
      exact ⟨(hlinked hc).mp hnode, c, hc, hcid⟩
    · rintro ⟨hp, c, hc, hcid⟩
      exact ⟨c, hc, (hlinked hc).mpr hp, hcid⟩

/-- Three clients, the second one without a socket; the third one is the master, whose
connection is lost and restored; the first one is freed. -/
def reconnectCalls : List (RegCall × Allocs) :=
  [.createClient true true, .createClient false true, .createClient true true,
    .freeClient 2 .cachedMaster, .reconnect 2, .linkClient 2, .freeClient 0 .plain].map
      (·, Stream'.const .same)

theorem reconnectCalls_meet :
    Runs.Meets regStep (fun r x => NoFail x.2 ∧ Allowed r x.1) .start reconnectCalls := by
  refine (Runs.meets_of_forall Registry.start fun x hx => ?_).and (by decide +kernel)
  obtain ⟨call, -, rfl⟩ := List.mem_map.mp hx
  exact noFail_const (by decide)

theorem registry_consistent_reconnect :
    ∃ r, Runs.run regStep .start reconnectCalls
        = some (r, [some 0, some 1, some 2, none, none, none, none])
      ∧ r.clients.values = [2]
      ∧ ∃ x, lookupClientByID r 3 (Stream'.const .same) = some x
        ∧ ∀ p, x = some p ↔ p ∈ r.clients.values ∧ ∃ c, r.memory p = some c ∧ c.id = 3 := by
  obtain ⟨r, hrun, hvalues, -, -, -, -, hfind⟩ :=
    registry_consistent reconnectCalls reconnectCalls_meet
  exact ⟨r, hrun, hvalues, hfind 3 (Stream'.const .same) (by decide)⟩

/-- A client that is linked twice is twice in the list; and one that is linked without a
socket stays in the list and in the index after it was freed. -/
theorem linkClient_twice :
    (Runs.run regStep .start ([.createClient true true, .linkClient 0].map
      (·, Stream'.const .same))).map
        (fun x => x.1.clients.values) = some [0, 0]
      ∧ (Runs.run regStep .start
          ([.createClient false true, .linkClient 0, .freeClient 0 .plain].map
            (·, Stream'.const .same))).map
          (fun x => (x.1.clients.values, x.1.memory 0,
            lookupClientByID x.1 1 (Stream'.const .same)))
        = some ([0], none, some (some 0)) := by
  decide +kernel

end ClientRegistry
