/-
The migration of the keys of a slot (redis-cli.c, `clusterManagerMigrateKeysInSlot`).

The nodes are maps from keys to values, with connections that may break (`Stores`).  A
command may fail with an error, or break its connection, after which nothing is answered on
it; `MIGRATE` then may have moved some of the keys that it names.  `Stores.Answers` says what
else is known of the replies.

* `Kept` — no key of the target has changed, and every key of the source is where it was or
  on the target;
* `always_retryMigration` — the second attempt, with `REPLACE` if the first one found keys on
  the target, overwrites a key only with the value that it has;
* `migration_safe_iff` — the migration ends, keeps all keys and moves all of them, unless it is
  asked to move none at a time or a key has a null byte before its last byte.
-/
import DecomposeRedis.ClusterManager

namespace ClusterManager

open Dialogue Function
open Networking (text cstring)

variable {V : Type}

/-! ### The nodes -/

/-- What the nodes hold, and which connections are broken. -/
structure Stores (V : Type) where
  data : ℕ → Bytes → Option V
  broken : ℕ → Bool
  finite : ∀ n, ∃ keys : List Bytes, ∀ k, data n k ≠ none → k ∈ keys

def Stores.lost (w : Stores V) (n : ℕ) : Stores V := { w with broken := update w.broken n true }

def Stores.move (w : Stores V) (source target : ℕ) (moved : List Bytes) : Stores V where
  data n k :=
    if k ∈ moved then if n = target then w.data source k else if n = source then
      none else w.data n k
    else w.data n k
  broken := w.broken
  finite n := by
    obtain ⟨keys, hkeys⟩ := w.finite n
    refine ⟨moved ++ keys, fun k hk => ?_⟩
    by_cases hmoved : k ∈ moved
    · exact List.mem_append_left _ hmoved
    · rw [if_neg hmoved] at hk
      exact List.mem_append_right _ (hkeys k hk)

/-- A command that changes nothing. -/
def Reads {α : Type} (w : Stores V) (n : ℕ) (P : α → Prop) : Reply α → Stores V → Prop
  | none, w' => w' = w.lost n
  | some (.error _), w' => w.broken n = false ∧ w' = w
  | some (.ok x), w' => (w.broken n = false ∧ w' = w) ∧ P x

/-- `MIGRATE`: some of the named keys have moved, all of them unless there is an error. -/
def Migrates (w : Stores V) (source target : ℕ) (replace : Bool) (keys : List Bytes)
    (reply : Reply Unit) (w' : Stores V) : Prop :=
  (w.broken source = true ∧ reply = none ∧ w' = w) ∨
  (w.broken source = false ∧ ∃ moved,
    (∀ k ∈ moved, k ∈ keys ∧ w.data source k ≠ none ∧ (replace = false → w.data target k = none)) ∧
    (reply = some (.ok ()) → ∀ k ∈ keys, w.data source k ≠ none → k ∈ moved) ∧
    w' = if reply = none then (w.move source target moved).lost source
      else w.move source target moved)

/-- The keys of a slot on a node. -/
def Stores.InSlot (slotOf : Bytes → ℕ) (w : Stores V) (n slot : ℕ) (k : Bytes) : Prop :=
  w.data n k ≠ none ∧ slotOf k = slot

/-- `CLUSTER GETKEYSINSLOT`: as many keys of the slot as there are, up to a number. -/
structure KeysInSlot (slotOf : Bytes → ℕ) (w : Stores V) (n slot : ℕ) (count : ℤ)
    (keys : List Bytes) : Prop where
  nodup : keys.Nodup
  inSlot : ∀ k ∈ keys, w.InSlot slotOf n slot k
  length : (keys.length : ℤ) ≤ count
  all : (keys.length : ℤ) < count → ∀ k, w.InSlot slotOf n slot k → k ∈ keys

/-- `DEBUG DIGEST-VALUE` of one key -/
def Stores.digestAt (digest : V → Bytes) (w : Stores V) (n : ℕ) (k : Bytes) : Bytes :=
  match w.data n k with
  | none => hashZero
  | some v => digest v

section Answers

variable (slotOf : Bytes → ℕ) (digest : V → Bytes)

def Stores.Responds (w : Stores V) (n : ℕ) : (cmd : Command) → cmd.Answer → Stores V → Prop
  | .countKeysInSlot _, reply, w' => Reads w n (fun _ => True) reply w'
  | .getKeysInSlot slot count, reply, w' =>
    Reads w n (fun keys => KeysInSlot slotOf w n slot count keys) reply w'
  | .setSlot _ _, reply, w' => Reads w n (fun _ => True) reply w'
  | .addSlots _, reply, w' => Reads w n (fun _ => True) reply w'
  | .delSlots _, reply, w' => Reads w n (fun _ => True) reply w'
  | .bumpEpoch, reply, w' => Reads w n (fun _ => True) reply w'
  | .multi, reply, w' => Reads w n (fun _ => True) reply w'
  | .exec, reply, w' => Reads w n (fun _ => True) reply w'
  | .slots, reply, w' => Reads w n (fun entries => entries ≠ none) reply w'
  | .migrate target replace keys, reply, w' => Migrates w n target replace keys reply w'
  | .digestValue keys, reply, w' =>
    Reads w n (fun hashes => hashes = keys.map (w.digestAt digest n)) reply w'

/-- The answers to the questions of a migration. -/
def Stores.Answers : World Request.Answer (Stores V)
  | w, .command n cmd, reply, w' => w.Responds slotOf digest n cmd reply w'
  | w, _, _, w' => w' = w

end Answers

/-! ### What is kept -/

/-- The keys that two nodes had are still there. -/
structure Kept (source target : ℕ) (w w' : Stores V) : Prop where
  stays : ∀ k v, w.data target k = some v → w'.data target k = some v
  moves : ∀ k v, w.data source k = some v → w'.data source k = some v ∨ w'.data target k = some v
  shrinks : ∀ k, w'.data source k ≠ none → w'.data source k = w.data source k

variable {source target slot : ℕ} {w w' w'' : Stores V}

theorem Kept.of_data_eq (h : w'.data = w.data) : Kept source target w w' := by
  refine ⟨fun k v hk => ?_, fun k v hk => ?_, fun k _ => ?_⟩
  · rw [h, hk]
  · rw [h, hk]
    exact Or.inl rfl
  · rw [h]

theorem Kept.refl (w : Stores V) : Kept source target w w := Kept.of_data_eq rfl

theorem Kept.trans (h : Kept source target w w') (h' : Kept source target w' w'') :
    Kept source target w w'' := by
  refine ⟨fun k v hk => h'.stays k v (h.stays k v hk), fun k v hk => ?_, fun k hk => ?_⟩
  · rcases h.moves k v hk with hk | hk
    · exact h'.moves k v hk
    · exact Or.inr (h'.stays k v hk)
  · have hk' := h'.shrinks k hk
    rw [hk'] at hk ⊢
    exact h.shrinks k hk

theorem kept_move {moved : List Bytes} (hne : source ≠ target)
    (hsame : ∀ k ∈ moved, w.data target k = none ∨ w.data target k = w.data source k) :
    Kept source target w (w.move source target moved) := by
  have hsource : ∀ k, (w.move source target moved).data source k = if k ∈ moved then
      none else w.data source k := by
    intro k
    show (if k ∈ moved then if source = target then _ else if source = source then _
        else _ else _) = _
    rw [if_neg hne, if_pos rfl]
  have htarget : ∀ k, (w.move source target moved).data target k = if k ∈ moved then
      w.data source k else w.data target k := by
    intro k
    show (if k ∈ moved then if target = target then _ else _ else _) = _
    rw [if_pos rfl]
  refine ⟨fun k v hk => ?_, fun k v hk => ?_, fun k hk => ?_⟩
  · rw [htarget]
    split_ifs with hmoved
    · rcases hsame k hmoved with h | h
      · rw [hk] at h
        exact nomatch h
      · rw [← h, hk]
    · exact hk
  · rw [htarget, hsource]
    split_ifs with hmoved
    · exact Or.inr hk
    · exact Or.inl hk
  · rw [hsource] at hk ⊢
    split_ifs at hk ⊢ with hmoved
    · exact absurd rfl hk
    · rfl

/-! ### The keys of a request -/

theorem cstring_concat {l : Bytes} (h : (0 : UInt8) ∉ l) (b : UInt8) :
    cstring (l ++ [b]) = if b = 0 then l else l ++ [b] := by
  rw [cstring, List.takeWhile_append_of_pos fun x hx => by
    rw [decide_eq_true_eq]
    exact fun h0 => h (h0 ▸ hx)]
  split_ifs with hb
  · rw [hb]
    simp
  · rw [List.takeWhile_cons_of_pos (by simpa using hb), List.takeWhile_nil]

/-- A key without a null byte before its last byte is sent as it is. -/
theorem sentKey_eq {key : Bytes} (h : (0 : UInt8) ∉ key.dropLast) : sentKey key = pure key := by
  rcases List.eq_nil_or_concat key with rfl | ⟨l, b, rfl⟩
  · rfl
  rw [List.concat_eq_append] at h ⊢
  rw [List.dropLast_concat] at h
  rw [sentKey, cstring_concat h b]
  split_ifs with hb hlen hlen
  · rw [hb, List.take_length]
  · exact absurd (Nat.le_of_eq (by rw [hb])) hlen
  · rw [List.take_left]
  · exact absurd (List.sublist_append_left (l ++ [b]) [0]).length_le hlen

theorem sentKeys_eq {keys : List Bytes} (h : ∀ k ∈ keys, (0 : UInt8) ∉ k.dropLast) :
    sentKeys keys = pure keys := by
  induction keys with
  | nil => rfl
  | cons k keys ih =>
    rw [sentKeys, sentKey_eq (h k List.mem_cons_self), ih fun k' hk' =>
      h k' (List.mem_cons_of_mem k hk')]
    rfl

/-- Any other key may be sent as another one, with any last byte. -/
theorem sentKey_ne {key : Bytes} (h : (0 : UInt8) ∈ key.dropLast) (b : UInt8) {slotOf : Bytes → ℕ}
    {digest : V → Bytes} {crash : Fault → Prop} (w : Stores V) :
    Sometimes (Stores.Answers slotOf digest) crash (fun name w' => name.getLast? = some b ∧ w' = w)
      (sentKey key) w := by
  have hlong : (cstring key ++ [0]).length < key.length := by
    rcases List.eq_nil_or_concat key with rfl | ⟨l, b', rfl⟩
    · exact nomatch h
    rw [List.concat_eq_append] at h ⊢
    rw [List.dropLast_concat] at h
    obtain ⟨front, back, rfl⟩ := List.append_of_mem h
    have hle : (cstring (front ++ 0 :: back ++ [b'])).length ≤ front.length := by
      rw [cstring, List.append_assoc, List.takeWhile_append]
      split_ifs
      · simp
      · exact (List.takeWhile_prefix _).length_le
    simp only [List.length_append, List.length_cons, List.length_nil] at hle ⊢
    omega
  rw [sentKey, if_neg (Nat.not_le.mpr hlong), sometimes_bind]
  refine ⟨fun _ => b, w, rfl, ?_, rfl⟩
  obtain ⟨n, hn⟩ : ∃ n, key.length - (cstring key ++ [0]).length = n + 1 :=
    ⟨_, (Nat.succ_pred (by omega)).symm⟩
  have hlast : ∀ m, m = n + 1 → (List.ofFn fun _ : Fin m => b).getLast? = some b := by
    rintro m rfl
    rw [List.ofFn_const, List.getLast?_replicate, if_neg (Nat.succ_ne_zero n)]
  rw [List.getLast?_append, hlast _ hn]
  rfl

/-! ### Commands -/

section Reads

variable {α : Type} {n : ℕ} {P : α → Prop} {reply : Reply α}

theorem Reads.data_eq (h : Reads w n P reply w') : w'.data = w.data := by
  rcases reply with _ | _ | x
  · rw [show w' = w.lost n from h]
    rfl
  · rw [h.2]
  · rw [h.1.2]

end Reads

variable {c : Cluster} {cfg : Settings} {slotOf : Bytes → ℕ} {digest : V → Bytes}
  {keys : List Bytes}

/-- What is known of a reply that reads. -/
theorem always_getKeysInSlot (n slot : ℕ) (count : ℤ) :
    Always (Stores.Answers slotOf digest) (fun _ => False)
      (fun reply w' => Reads w n (fun keys => KeysInSlot slotOf w n slot count keys) reply w')
      (command n (.getKeysInSlot slot count)) w := fun _ _ h => h

theorem always_digestValue (n : ℕ) (keys : List Bytes) :
    Always (Stores.Answers slotOf digest) (fun _ => False)
      (fun reply w' => Reads w n (fun hashes => hashes = keys.map (w.digestAt digest n)) reply w')
      (command n (.digestValue keys)) w := fun _ _ h => h

theorem always_slots (n : ℕ) :
    Always (Stores.Answers slotOf digest) (fun _ => False)
      (fun reply w' => Reads w n (fun entries => entries ≠ none) reply w') (command n .slots) w :=
  fun _ _ h => h

/-- A program that reads only, and does not crash. -/
abbrev OnlyReads {α : Type} (slotOf : Bytes → ℕ) (digest : V → Bytes) (p : Manager α)
    (w : Stores V) : Prop :=
  Always (Stores.Answers slotOf digest) (fun _ => False) (fun _ w' => w'.data = w.data) p w

theorem onlyReads_setSlot (n slot : ℕ) (status : Status) :
    OnlyReads slotOf digest (setSlot n slot status) w :=
  Always.bind (fun _ _ h => Reads.data_eq h : OnlyReads slotOf digest
    (command n (.setSlot slot status)) w) fun _ _ h => h

theorem onlyReads_notServed (n slot : ℕ) : OnlyReads slotOf digest (notServed c n slot) w := by
  have howner : OnlyReads slotOf digest (getSlotOwner c n slot) w := by
    refine (always_slots n).bind fun reply w' h => ?_
    have hdata := h.data_eq
    rcases reply with _ | _ | _ | entries
    · exact hdata
    · exact hdata
    · exact h.2 rfl
    · exact hdata
  exact howner.bind fun _ _ h => h

/-- Keys that are on both nodes have the same value there, if no digests differ. -/
theorem differing_eq_nil {data data' : Bytes → Bytes}
    (h : differing keys (keys.map data) (keys.map data') = []) :
    ∀ k ∈ keys, data k = hashZero ∨ data' k = hashZero ∨ data k = data' k := by
  induction keys with
  | nil => exact fun k hk => nomatch hk
  | cons key keys ih =>
    rw [List.map_cons, List.map_cons, differing] at h
    intro k hk
    split_ifs at h with hzero hne
    · rcases List.mem_cons.mp hk with rfl | hk
      · exact hzero.imp_right Or.inl
      · exact ih h k hk
    · rcases List.mem_cons.mp hk with rfl | hk
      · exact Or.inr (Or.inr (not_not.mp hne))
      · exact ih h k hk

/-- The two nodes have the same values for the keys that are on both. -/
def Agree (w : Stores V) (source target : ℕ) (keys : List Bytes) : Prop :=
  ∀ k ∈ keys, w.data source k = none ∨ w.data target k = none ∨ w.data target k = w.data source k

section Digest

variable (hinj : Injective digest) (hzero : ∀ v, digest v ≠ hashZero)

include hzero in
theorem digestAt_eq_hashZero {n : ℕ} {k : Bytes} (h : w.digestAt digest n k = hashZero) :
    w.data n k = none := by
  rw [Stores.digestAt] at h
  cases hk : w.data n k with
  | none => rfl
  | some v =>
    rw [hk] at h
    exact absurd h (hzero v)

include hinj hzero in
theorem always_compareKeysValues (keys : List Bytes) :
    Always (Stores.Answers slotOf digest) (fun _ => False) (fun diffs w' => w'.data = w.data ∧
      (diffs = some [] → Agree w source target keys))
      (compareKeysValues source target keys) w := by
  refine (always_digestValue source keys).bind fun reply1 w1 h1 => ?_
  have hdata1 := h1.data_eq
  rcases reply1 with _ | reply1
  · exact ⟨hdata1, fun h => nomatch h⟩
  refine (always_digestValue target keys).bind fun reply2 w2 h2 => ?_
  have hdata2 := h2.data_eq.trans hdata1
  rcases reply2 with _ | reply2
  · exact ⟨hdata2, fun h => nomatch h⟩
  rcases reply1 with e1 | hashes1
  · exact ⟨hdata2, fun h => nomatch h⟩
  rcases reply2 with e2 | hashes2
  · exact ⟨hdata2, fun h => nomatch h⟩
  obtain ⟨⟨-, rfl⟩, rfl⟩ := h1
  obtain ⟨⟨-, rfl⟩, rfl⟩ := h2
  dsimp only
  rw [if_pos ⟨(List.length_map _).symm, (List.length_map _).symm⟩]
  refine ⟨rfl, fun h k hk => ?_⟩
  rcases differing_eq_nil (Option.some.inj h) k hk with h | h | h
  · exact Or.inl (digestAt_eq_hashZero hzero h)
  · exact Or.inr (Or.inl (digestAt_eq_hashZero hzero h))
  · rw [Stores.digestAt, Stores.digestAt] at h
    cases hs : w2.data source k with
    | none => exact Or.inl rfl
    | some v =>
      cases ht : w2.data target k with
      | none => exact Or.inr (Or.inl rfl)
      | some v' =>
        rw [hs, ht] at h
        exact Or.inr (Or.inr (congrArg some (hinj h).symm))

end Digest

/-- What is known after a request to move some keys. -/
structure Moved (source target : ℕ) (keys : List Bytes) (w : Stores V) (reply : Reply Unit)
    (w' : Stores V) : Prop where
  kept : Kept source target w w'
  lost : reply = none → w'.broken source = true
  gone : reply = some (.ok ()) → ∀ k ∈ keys, w'.data source k = none

theorem always_migrateKeysInReply (hne : source ≠ target) {replace : Bool}
    (hkeys : ∀ k ∈ keys, (0 : UInt8) ∉ k.dropLast)
    (hagree : replace = true → Agree w source target keys) :
    Always (Stores.Answers slotOf digest) (fun _ => False) (fun reply w' =>
      Moved source target keys w reply w')
      (migrateKeysInReply source target keys replace) w := by
  rw [migrateKeysInReply, sentKeys_eq hkeys]
  rintro reply w' (⟨hbroken, rfl, rfl⟩ | ⟨hbroken, moved, hmoved, hall, rfl⟩)
  · exact ⟨Kept.refl _, fun _ => hbroken, fun h => nomatch h⟩
  have hkept : Kept source target w (w.move source target moved) := by
    refine kept_move hne fun k hk => ?_
    obtain ⟨hk, hpresent, hfree⟩ := hmoved k hk
    cases hr : replace with
    | false => exact Or.inl (hfree hr)
    | true => exact (hagree hr k hk).resolve_left hpresent
  refine ⟨?_, fun hnone => ?_, fun hok k hk => ?_⟩
  · split_ifs
    · exact hkept.trans (Kept.of_data_eq rfl)
    · exact hkept
  · rw [if_pos hnone]
    exact update_self _ _ _
  · rw [if_neg (by rw [hok]; exact nofun)]
    show (if k ∈ moved then if source = target then _ else if source = source then _
        else _ else _) = none
    rw [if_neg hne, if_pos rfl]
    split_ifs with hmem
    · rfl
    · by_contra hpresent
      exact hmem (hall hok k hk hpresent)

variable (hinj : Injective digest) (hzero : ∀ v, digest v ≠ hashZero)

include hinj hzero in
/-- The second attempt keeps all keys, and if it succeeds the batch has moved. -/
theorem always_retryMigration (hne : source ≠ target) (hreplace : cfg.replace = false)
    (hkeys : ∀ k ∈ keys, (0 : UInt8) ∉ k.dropLast) (err : Bytes) :
    Always (Stores.Answers slotOf digest) (fun _ => False)
      (fun success w' => Kept source target w w' ∧
        (success = true → ∀ k ∈ keys, w'.data source k = none))
      (retryMigration c cfg source target slot keys err) w := by
  have hfail : ∀ {w' : Stores V}, w'.data = w.data → Kept source target w w' ∧
      (false = true → ∀ k ∈ keys, w'.data source k = none) :=
    fun h => ⟨Kept.of_data_eq h, fun h => nomatch h⟩
  rw [retryMigration]
  generalize decide (text "BUSYKEY" <:+: err) = isBusy
  have hserved : OnlyReads slotOf digest (if isBusy then pure false
      else notServed c source slot) w := by
    split_ifs
    · exact rfl
    · exact onlyReads_notServed source slot
  refine hserved.bind fun unserved w1 h1 => always_ite (fun _ => ?_) fun _ => hfail h1
  have hset : OnlyReads slotOf digest (if cfg.fix && unserved then
      setSlot source slot (.node (c.node target).name)
      else pure true) w1 :=
    always_ite (fun _ => onlyReads_setSlot source slot _) fun _ => rfl
  refine hset.bind fun _ w2 h2 => ?_
  have h2 := h2.trans h1
  -- the values are compared before keys of the target are overwritten
  have hproceed : Always (Stores.Answers slotOf digest) (fun _ => False)
      (fun proceed w' => w'.data = w.data ∧ (proceed = true → isBusy = true →
        Agree w' source target keys))
      (if isBusy && !cfg.replace then do
        let diffs ← compareKeysValues source target keys
        pure (decide (diffs = some []))
      else pure true) w2 := by
    rw [hreplace]
    cases isBusy with
    | false => exact ⟨h2, fun _ h => absurd h Bool.false_ne_true⟩
    | true =>
      refine (always_compareKeysValues hinj hzero keys).bind fun diffs w3 h3 => ?_
      refine ⟨h3.1.trans h2, fun hproceed _ => ?_⟩
      rw [Agree, h3.1]
      exact h3.2 (of_decide_eq_true hproceed)
  refine hproceed.bind fun proceed w3 h3 => always_ite (fun hgo => ?_) fun _ => hfail h3.1
  refine (always_migrateKeysInReply hne hkeys (h3.2 hgo)).bind fun reply w4 h4 => ?_
  refine ⟨(Kept.of_data_eq h3.1).trans h4.kept, fun hsuccess => h4.gone ?_⟩
  rcases reply with _ | _ | ⟨⟩
  · exact nomatch hsuccess
  · exact nomatch hsuccess
  · rfl

/-! ### The migration -/

theorem countP_lt {α : Type} {l : List α} {p q : α → Bool} (hle : ∀ a ∈ l, q a = true → p a = true)
    {a : α} (ha : a ∈ l) (hp : p a = true) (hq : q a = false) : l.countP q < l.countP p := by
  obtain ⟨front, back, rfl⟩ := List.append_of_mem ha
  have hfront : front.countP q ≤ front.countP p := List.countP_mono_left fun b hb =>
    hle b (by simp [hb])
  have hback : back.countP q ≤ back.countP p := List.countP_mono_left fun b hb =>
    hle b (by simp [hb])
  rw [List.countP_append, List.countP_append, List.countP_cons_of_pos hp,
    List.countP_cons_of_neg (by simp [hq])]
  omega

/-- The keys of a list that a node has. -/
def keysLeft (w : Stores V) (n : ℕ) (keys : List Bytes) : ℕ :=
  keys.countP fun k => (w.data n k).isSome

/-- A migration that went well: see `Kept`, and all keys of the slot have moved if it says so. -/
structure Migrated (slotOf : Bytes → ℕ) (source target slot : ℕ) (w : Stores V) (success : Bool)
    (w' : Stores V) : Prop where
  stays : ∀ k v, w.data target k = some v → w'.data target k = some v
  moves : ∀ k v, w.data source k = some v → w'.data source k = some v ∨ w'.data target k = some v
  moved : success = true → ∀ k, slotOf k = slot → w'.data source k = none

include hinj hzero in
/-- With a key of the slot less after each round, the rounds come to an end. -/
theorem always_migrateKeysInSlot (hne : source ≠ target) (hreplace : cfg.replace = false)
    (hpipeline : 0 < cfg.pipeline) {w₀ : Stores V} {all : List Bytes}
    (hall : ∀ k, w₀.InSlot slotOf source slot k → k ∈ all)
    (hnull : ∀ k ∈ all, (0 : UInt8) ∉ k.dropLast) {fuel : ℕ} (hkept : Kept source target w₀ w)
    (hfuel : keysLeft w source all + 1 < fuel ∨ w.broken source = true ∧ 0 < fuel) :
    Always (Stores.Answers slotOf digest) (fun _ => False) (fun success w' =>
      Migrated slotOf source target slot w₀ success w')
      (migrateKeysInSlot c cfg fuel source target slot) w := by
  induction fuel generalizing w with
  | zero => omega
  | succ fuel ih =>
    have hfail : ∀ {w' : Stores V}, Kept source target w₀ w' →
        Migrated slotOf source target slot w₀ false w' :=
      fun h => ⟨h.stays, h.moves, fun h => nomatch h⟩
    refine (always_getKeysInSlot source slot cfg.pipeline).bind fun reply w1 h1 => ?_
    have hkept1 : Kept source target w₀ w1 := hkept.trans (Kept.of_data_eq h1.data_eq)
    rcases reply with _ | _ | keys
    · exact hfail hkept1
    · exact hfail hkept1
    obtain ⟨⟨hbroken, rfl⟩, hkeys⟩ := h1
    have hfuel : keysLeft w1 source all + 1 < fuel + 1 := by
      rcases hfuel with h | ⟨h, -⟩
      · exact h
      · exact absurd (hbroken.symm.trans h) Bool.false_ne_true
    have hmem : ∀ k, w1.InSlot slotOf source slot k → k ∈ all := by
      refine fun k hk => hall k ⟨?_, hk.2⟩
      rw [← hkept.shrinks k hk.1]
      exact hk.1
    dsimp only
    split_ifs with hempty
    · -- no keys were returned although some were asked for
      refine ⟨hkept.stays, hkept.moves, fun _ k hslot => ?_⟩
      by_contra hpresent
      have hk := hkeys.all (by rw [hempty]; exact_mod_cast hpipeline) k ⟨hpresent, hslot⟩
      rw [List.eq_nil_of_length_eq_zero hempty] at hk
      exact nomatch hk
    · have hsend : ∀ k ∈ keys, (0 : UInt8) ∉ k.dropLast :=
        fun k hk => hnull k (hmem k (hkeys.inSlot k hk))
      -- the next round after one that moved the batch
      have hnext : ∀ {w2 : Stores V}, Kept source target w1 w2 →
          (∀ k ∈ keys, w2.data source k = none) →
          Always (Stores.Answers slotOf digest) (fun _ => False) (fun success w' =>
            Migrated slotOf source target slot w₀ success w')
            (migrateKeysInSlot c cfg fuel source target slot) w2 := by
        intro w2 hkept2 hgone
        refine ih (hkept.trans hkept2) (Or.inl ?_)
        obtain ⟨k, hk⟩ := List.exists_mem_of_length_pos (Nat.pos_of_ne_zero hempty)
        have hlt : keysLeft w2 source all < keysLeft w1 source all := by
          refine countP_lt (fun a _ ha => ?_) (hmem k (hkeys.inSlot k hk)) ?_
            (by rw [hgone k hk]; rfl)
          · rw [← hkept2.shrinks a (Option.isSome_iff_ne_none.mp ha)]
            exact ha
          · exact Option.isSome_iff_ne_none.mpr (hkeys.inSlot k hk).1
        omega
      refine (always_migrateKeysInReply hne hsend fun h => absurd h Bool.false_ne_true).bind
        fun reply w2 h2 => ?_
      rcases reply with _ | err | ⟨⟩
      · -- a null reply: the connection is broken, so that the next round ends
        exact ih (hkept.trans h2.kept) (Or.inr ⟨h2.lost rfl, by omega⟩)
      · refine (always_retryMigration hinj hzero hne hreplace hsend err).bind
          fun success w3 h3 => ?_
        split_ifs with hsuccess
        · exact hnext (h2.kept.trans h3.1) (h3.2 hsuccess)
        · exact hfail ((hkept.trans h2.kept).trans h3.1)
      · exact hnext h2.kept (h2.gone rfl)

/-! ### Migrations that do not end -/

/-- There are always keys to return. -/
theorem exists_keysInSlot (slotOf : Bytes → ℕ) (w : Stores V) (n slot : ℕ) {count : ℤ}
    (hcount : 0 < count) {k : Bytes} (hk : w.InSlot slotOf n slot k) :
    ∃ keys, KeysInSlot slotOf w n slot count keys ∧ keys.length ≠ 0 := by
  classical
  obtain ⟨all, hall⟩ := w.finite n
  obtain ⟨l, hl⟩ : ∃ l, l = all.dedup.filter fun k => decide (w.InSlot slotOf n slot k) := ⟨_, rfl⟩
  have hmem : ∀ k, k ∈ l ↔ w.InSlot slotOf n slot k := by
    intro k
    rw [hl, List.mem_filter, decide_eq_true_eq, List.mem_dedup]
    exact and_iff_right_of_imp fun h => hall k h.1
  have hnodup : l.Nodup := hl ▸ all.nodup_dedup.filter _
  have hpos : 0 < l.length := List.length_pos_of_mem ((hmem k).mpr hk)
  refine ⟨l.take count.toNat, ⟨hnodup.sublist (List.take_sublist _ _), fun k hk => ?_, ?_,
    fun hlt k hk => ?_⟩, ?_⟩
  · exact (hmem k).mp (List.mem_of_mem_take hk)
  · rw [List.length_take]
    omega
  · rw [List.length_take] at hlt
    rw [List.take_of_length_le (by omega)]
    exact (hmem k).mpr hk
  · rw [List.length_take]
    omega

/-- A key with a null byte before its last byte need not be among the keys that are sent. -/
theorem sometimes_sentKeys {k₀ : Bytes} (hnull : (0 : UInt8) ∈ k₀.dropLast) (keys : List Bytes)
    (w : Stores V) :
    Sometimes (Stores.Answers slotOf digest) (fun _ => True) (fun names w' => k₀ ∉ names ∧ w' = w)
      (sentKeys keys) w := by
  have hne : k₀ ≠ [] := by
    rintro rfl
    exact nomatch hnull
  have hname : ∀ key, Sometimes (Stores.Answers slotOf digest) (fun _ => True) (fun name w' => name
      ≠ k₀ ∧ w' = w) (sentKey key) w := by
    intro key
    by_cases hkey : (0 : UInt8) ∈ key.dropLast
    · refine (sentKey_ne hkey (k₀.getLast hne + 1) w).mono fun name w' h => ⟨fun heq => ?_, h.2⟩
      rw [heq, List.getLast?_eq_some_getLast hne] at h
      have hlast := Option.some.inj h.1
      generalize k₀.getLast hne = b at hlast
      have hone : b + 0 = b + 1 := by rwa [UInt8.add_zero]
      exact absurd (UInt8.add_right_inj b |>.mp hone) (by decide)
    · rw [sentKey_eq hkey]
      exact ⟨fun heq => hkey (heq ▸ hnull), rfl⟩
  induction keys with
  | nil => exact ⟨List.not_mem_nil, rfl⟩
  | cons key keys ih =>
    refine (hname key).bind fun name w' h => ?_
    rw [h.2]
    refine ih.bind fun names w' h' => ⟨?_, h'.2⟩
    rw [List.mem_cons, not_or]
    exact ⟨fun heq => h.1 heq.symm, h'.1⟩

/-- Nothing hinders the migration, but a key is never named. -/
structure Stuck (slotOf : Bytes → ℕ) (source target slot : ℕ) (k₀ : Bytes)
    (w : Stores V) : Prop where
  present : w.InSlot slotOf source slot k₀
  connected : w.broken source = false
  apart : ∀ k, w.data source k ≠ none → w.data target k = none

theorem sometimes_never_ends (hne : source ≠ target) (hpipeline : 0 < cfg.pipeline) {k₀ : Bytes}
    (hnull : (0 : UInt8) ∈ k₀.dropLast) (h : Stuck slotOf source target slot k₀ w) (fuel : ℕ) :
    Sometimes (Stores.Answers slotOf digest) (fun _ => True) (fun _ _ => False)
      (migrateKeysInSlot c cfg fuel source target slot) w := by
  induction fuel generalizing w with
  | zero => trivial
  | succ fuel ih =>
    obtain ⟨keys, hkeys, hlength⟩ := exists_keysInSlot slotOf w source slot hpipeline h.present
    refine ⟨some (.ok keys), w, ⟨⟨h.connected, rfl⟩, hkeys⟩, ?_⟩
    show Sometimes _ _ _ (if keys.length = 0 then _ else _) w
    rw [if_neg hlength, sometimes_bind, migrateKeysInReply, sometimes_bind]
    refine (sometimes_sentKeys hnull keys w).mono fun names w' hnames => ?_
    obtain ⟨hnot, rfl⟩ := hnames
    -- all that is named moves
    obtain ⟨moved, hmoved⟩ : ∃ moved, moved = names.filter fun k =>
        (w'.data source k).isSome := ⟨_, rfl⟩
    have hmem : ∀ k, k ∈ moved ↔ k ∈ names ∧ w'.data source k ≠ none := by
      intro k
      rw [hmoved, List.mem_filter, Option.isSome_iff_ne_none]
    refine ⟨some (.ok ()), w'.move source target moved, Or.inr ⟨h.connected, moved, fun k hk => ?_,
      fun _ k hk hpresent => ?_, rfl⟩, ?_⟩
    · obtain ⟨hk, hpresent⟩ := (hmem k).mp hk
      exact ⟨hk, hpresent, fun _ => h.apart k hpresent⟩
    · exact (hmem k).mpr ⟨hk, hpresent⟩
    refine ih ⟨⟨?_, h.present.2⟩, h.connected, fun k hk => ?_⟩
    · show (if k₀ ∈ moved then _ else w'.data source k₀) ≠ none
      rw [if_neg fun hk => hnot ((hmem k₀).mp hk).1]
      exact h.present.1
    · have hkm : k ∉ moved := by
        intro hkm
        refine hk ?_
        show (if k ∈ moved then if source = target then _ else if source = source then none
            else _ else _) = none
        rw [if_pos hkm, if_neg hne, if_pos rfl]
      have hk : (if k ∈ moved then _ else w'.data source k) ≠ none := hk
      rw [if_neg hkm] at hk
      show (if k ∈ moved then _ else w'.data target k) = none
      rw [if_neg hkm]
      exact h.apart k hk

/-- Some keys on one node, and nothing else. -/
def Stores.only [Inhabited V] (source : ℕ) (keys : List Bytes) : Stores V where
  data n k := if n = source ∧ k ∈ keys then some default else none
  broken _ := false
  finite n := ⟨keys, fun k hk => by
    by_contra hnot
    exact hk (if_neg fun h => hnot h.2)⟩

theorem inSlot_only [Inhabited V] (hslot : ∀ k ∈ keys, slotOf k = slot) (k : Bytes) :
    (Stores.only source keys : Stores V).InSlot slotOf source slot k ↔ k ∈ keys := by
  have hdata : (Stores.only source keys : Stores V).data source k = if source = source ∧
      k ∈ keys then some default else none := rfl
  rw [Stores.InSlot, hdata]
  by_cases hk : k ∈ keys
  · rw [if_pos ⟨rfl, hk⟩]
    exact ⟨fun _ => hk, fun _ => ⟨nofun, hslot k hk⟩⟩
  · rw [if_neg fun h => hk h.2]
    exact ⟨fun h => absurd rfl h.1, fun h => absurd h hk⟩

/-- **The migration ends, keeps all keys and moves all of them**, for all nodes with the given
keys, if and only if there is nothing to move, the number of keys asked for is refused, or it
is positive and no key has a null byte before its last byte. -/
theorem migration_safe_iff [Inhabited V] (c : Cluster) {cfg : Settings} {source target slot : ℕ}
    (hne : source ≠ target) (hreplace : cfg.replace = false) {slotOf : Bytes → ℕ}
    {digest : V → Bytes} (hinj : Injective digest) (hzero : ∀ v, digest v ≠ hashZero)
    {keys : List Bytes} (hslot : ∀ k ∈ keys, slotOf k = slot) :
    (∀ w : Stores V, (∀ k, w.InSlot slotOf source slot k ↔ k ∈ keys) →
      ∃ fuel, Always (Stores.Answers slotOf digest) (fun _ => False)
        (fun success w' => Migrated slotOf source target slot w success w')
          (migrateKeysInSlot c cfg fuel source target slot) w) ↔
      keys = [] ∨ cfg.pipeline < 0 ∨ 0 < cfg.pipeline ∧ ∀ k ∈ keys, (0 : UInt8) ∉ k.dropLast := by
  constructor
  · intro h
    by_contra hnot
    rw [not_or, not_or] at hnot
    obtain ⟨hkeys, hneg, hnull⟩ := hnot
    obtain ⟨fuel, h⟩ := h (Stores.only source keys) (inSlot_only hslot)
    rcases (Int.not_lt.mp hneg).eq_or_lt with hpipeline | hpipeline
    · -- no keys are asked for, and none are moved
      cases fuel with
      | zero => exact h
      | succ fuel =>
        have hanswer : KeysInSlot slotOf (Stores.only source keys : Stores V) source slot
            cfg.pipeline [] :=
          ⟨List.nodup_nil, fun _ hk => (List.not_mem_nil hk).elim, Int.le_of_eq hpipeline,
            fun hlt => absurd hlt (Int.not_lt.mpr (Int.le_of_eq hpipeline.symm))⟩
        have hreturn : Migrated slotOf source target slot (Stores.only source keys : Stores V) true
            (Stores.only source keys) :=
          h (some (.ok [])) (Stores.only source keys) ⟨⟨rfl, rfl⟩, hanswer⟩
        obtain ⟨k, hk⟩ := List.exists_mem_of_ne_nil keys hkeys
        exact ((inSlot_only (V := V) hslot k).mpr hk).1 (hreturn.moved rfl k (hslot k hk))
    · -- a key is never named
      obtain ⟨k₀, hk₀, hnull⟩ : ∃ k ∈ keys, (0 : UInt8) ∈ k.dropLast := by
        by_contra hno
        push Not at hno
        exact hnull ⟨hpipeline, hno⟩
      have hstuck : Stuck slotOf source target slot k₀ (Stores.only source keys : Stores V) := by
        refine ⟨(inSlot_only hslot k₀).mpr hk₀, rfl, fun k _ => ?_⟩
        exact if_neg fun h => hne h.1.symm
      have hnever : Sometimes (Stores.Answers slotOf digest) (fun _ => True) (fun _ _ => False)
          (migrateKeysInSlot c cfg fuel source target slot) (Stores.only source keys : Stores V) :=
        sometimes_never_ends hne hpipeline hnull hstuck fuel
      refine (not_always _ _ _ _ _).mpr ?_ h
      simp only [not_false_eq_true]
      exact hnever.mono fun _ _ hf => False.elim hf
  · rintro hcase w hw
    -- without a batch there is one round
    have hone : (∀ batch, KeysInSlot slotOf w source slot cfg.pipeline batch → keys = []) →
        Always (Stores.Answers slotOf digest) (fun _ => False)
          (fun success w' => Migrated slotOf source target slot w success w')
            (migrateKeysInSlot c cfg 1 source target slot) w := by
      intro hempty
      refine (always_getKeysInSlot source slot cfg.pipeline).bind fun reply w' hreply => ?_
      have hkept : Kept source target w w' := Kept.of_data_eq hreply.data_eq
      rcases reply with _ | _ | batch
      · exact ⟨hkept.stays, hkept.moves, fun h => nomatch h⟩
      · exact ⟨hkept.stays, hkept.moves, fun h => nomatch h⟩
      · obtain ⟨⟨-, rfl⟩, hbatch⟩ := hreply
        have hnone : ∀ k, ¬ w'.InSlot slotOf source slot k := by
          intro k hk
          have hk := (hw k).mp hk
          rw [hempty batch hbatch] at hk
          exact nomatch hk
        have hnil : batch = [] := List.eq_nil_iff_forall_not_mem.mpr fun k hk =>
          hnone k (hbatch.inSlot k hk)
        rw [hnil]
        refine ⟨fun _ _ h => h, fun _ _ h => Or.inl h, fun _ k hk => ?_⟩
        by_contra hpresent
        exact hnone k ⟨hpresent, hk⟩
    rcases hcase with hnil | hneg | ⟨hpipeline, hnull⟩
    · exact ⟨1, hone fun _ _ => hnil⟩
    · exact ⟨1, hone fun batch hbatch => absurd hbatch.length (by omega)⟩
    · exact ⟨keysLeft w source keys + 2, always_migrateKeysInSlot hinj hzero hne hreplace hpipeline
        (fun k hk => (hw k).mp hk) hnull
        (Kept.refl w) (Or.inl (Nat.lt_succ_self _))⟩

/-- Two nodes and a batch size of ten: all keys without null bytes are moved. -/
theorem migration_safe_iff_sample :
    (∀ w : Stores Bytes, (∀ k, w.InSlot (fun _ => 7) 0 7 k ↔ k ∈ [[97], [98, 0]]) →
      ∃ fuel, Always (Stores.Answers (fun _ => 7) (fun v => 1 :: v)) (fun _ => False)
        (fun success w' => Migrated (fun _ => 7) 0 1 7 w success w')
        (migrateKeysInSlot ⟨2, fun _ => ⟨[], [], 0, false, none, fun _ => false, [], []⟩⟩ ⟨true,
          false, false, 10⟩ fuel 0 1 7) w) ↔
      [[97], [98, 0]] = ([] : List Bytes) ∨ (10 : ℤ) < 0 ∨ (0 : ℤ) < 10 ∧ ∀ k ∈ [[97], [98, 0]],
        (0 : UInt8) ∉ k.dropLast :=
  migration_safe_iff _ (show 0 ≠ 1 by decide) rfl (fun _ _ h => (List.cons.inj h).2)
    (fun v h => absurd (List.cons.inj (show 1 :: v = 48 :: List.replicate 39 48 from h)).1
      (by decide)) fun _ _ => rfl

/-- With `--cluster-pipeline 0` a slot with a key is called migrated at once. -/
theorem empty_batches_lose_keys :
    Sometimes (Stores.Answers (fun _ => 7) (fun v : Bytes => 1 :: v)) (fun _ => False)
      (fun success w' => success = true ∧ w'.data 0 [97] = some [])
      (migrateKeysInSlot ⟨2, fun _ => ⟨[], [], 0, false, none, fun _ => false, [], []⟩⟩ ⟨true,
        false, false, 0⟩ 1 0 1 7)
      (Stores.only 0 [[97]]) := by
  refine ⟨some (.ok []), Stores.only 0 [[97]], ⟨⟨rfl, rfl⟩, List.nodup_nil, fun _ hk => ?_,
    Int.le_refl 0, fun hlt => ?_⟩, rfl, rfl⟩
  · exact (List.not_mem_nil hk).elim
  · exact absurd hlt (Int.lt_irrefl 0)

end ClusterManager
