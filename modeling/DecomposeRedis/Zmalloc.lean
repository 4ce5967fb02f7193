/-
The memory count of zmalloc.c.

What is added to `used_memory` for a block is what the allocator reports, or the size that was
asked for with the word in front of it; what is subtracted is read from the block again.
`usedMemory_exact` says that the two agree over every run.  The answers of the allocator are
inputs, and a function is `none` where the word does not fit into the block.
-/
import Mathlib.Algebra.Order.BigOperators.Group.List
import Mathlib.Algebra.Order.Ring.Nat
import DecomposeRedis.Runs

namespace Zmalloc

/-- `HAVE_MALLOC_SIZE`, or a stored size. -/
inductive Config
  | mallocSize
  | storedSize

/-- `PREFIX_SIZE` -/
def Config.prefixSize : Config → ℕ
  | .mallocSize => 0
  | .storedSize => 8

/-- A live block with its first word, which no other block shares. -/
structure Block where
  addr : ℕ
  usable : ℕ
  word : ℕ
  deriving DecidableEq

structure State where
  usedMemory : ℕ
  blocks : List Block

/-- `update_zmalloc_stat_alloc`; the rounded size goes nowhere. -/
def updateZmallocStatAlloc (n : ℕ) (s : State) : State :=
  { s with usedMemory := (s.usedMemory + n) % 2 ^ 64 }

/-- `update_zmalloc_stat_free` -/
def updateZmallocStatFree (n : ℕ) (s : State) : State :=
  { s with usedMemory := (s.usedMemory + (2 ^ 64 - n)) % 2 ^ 64 }

/-- The amount for a block that goes. -/
def oldAmount (b : Block) : Config → ℕ
  | .mallocSize => b.usable
  | .storedSize => (b.word + 8) % 2 ^ 64

/-- A new block, and the amount for it.  The size is written to the first word of the block. -/
def newBlock (size addr usable : ℕ) : Config → Option (Block × ℕ)
  | .mallocSize => some (⟨addr, usable, 0⟩, usable)
  | .storedSize =>
    if usable < 8 then none else some (⟨addr, usable, size⟩, (size + 8) % 2 ^ 64)

variable (cfg : Config)

/-- The block behind a pointer. -/
def block (ptr : ℕ) (s : State) : Option Block :=
  s.blocks.find? (·.addr + cfg.prefixSize = ptr)

/-- `zmalloc`, with the pointer it returns. -/
def zmalloc (size addr usable : ℕ) (s : State) : Option (State × ℕ) :=
  (newBlock size addr usable cfg).map fun b =>
    (updateZmallocStatAlloc b.2 { s with blocks := b.1 :: s.blocks }, addr + cfg.prefixSize)

/-- `zcalloc`; what a block holds is not modelled. -/
def zcalloc : ℕ → ℕ → ℕ → State → Option (State × ℕ) := zmalloc cfg

/-- `zfree` -/
def zfree (ptr : ℕ) (s : State) : Option State :=
  if ptr = 0 then some s
  else (block cfg ptr s).map fun b =>
    updateZmallocStatFree (oldAmount b cfg) { s with blocks := s.blocks.erase b }

/-- `zrealloc` -/
def zrealloc (ptr size addr usable : ℕ) (s : State) : Option (State × ℕ) :=
  if size = 0 ∧ ptr ≠ 0 then (zfree cfg ptr s).map fun s => (s, 0)
  else if ptr = 0 then zmalloc cfg size addr usable s
  else (block cfg ptr s).bind fun old => (newBlock size addr usable cfg).map fun b =>
    let blocks := b.1 :: s.blocks.erase old
    let s := updateZmallocStatFree (oldAmount old cfg) { s with blocks := blocks }
    (updateZmallocStatAlloc b.2 s, addr + cfg.prefixSize)

inductive Call
  | zmalloc (size addr usable : ℕ)
  | zcalloc (size addr usable : ℕ)
  | zrealloc (ptr size addr usable : ℕ)
  | zfree (ptr : ℕ)

def step (s : State) : Call → Option (State × ℕ)
  | .zmalloc size addr usable => zmalloc cfg size addr usable s
  | .zcalloc size addr usable => zcalloc cfg size addr usable s
  | .zrealloc ptr size addr usable => zrealloc cfg ptr size addr usable s
  | .zfree ptr => (zfree cfg ptr s).map fun s => (s, 0)

/-- An answer of the allocator to a size that does not wrap with the word: not null, as large
as asked for, and in one address space with the other blocks. -/
structure Grants (blocks : List Block) (size addr usable : ℕ) : Prop where
  addr_ne : addr ≠ 0
  no_wrap : size + cfg.prefixSize < 2 ^ 64
  le_usable : size + cfg.prefixSize ≤ usable
  fits : (blocks.map Block.usable).sum + usable < 2 ^ 64

/-- Calls on live blocks, or on `NULL`, that are granted. -/
def Valid (s : State) : Call → Prop
  | .zmalloc size addr usable | .zcalloc size addr usable => Grants cfg s.blocks size addr usable
  | .zrealloc ptr size addr usable =>
    if ptr = 0 then Grants cfg s.blocks size addr usable
    else ∃ b, block cfg ptr s = some b ∧ (size = 0 ∨ Grants cfg (s.blocks.erase b) size addr usable)
  | .zfree ptr => ptr = 0 ∨ (block cfg ptr s).isSome

/-- What the count and the blocks have to do with each other. -/
structure Accounts (s : State) : Prop where
  used : s.usedMemory = (s.blocks.map (oldAmount · cfg)).sum
  fits : (s.blocks.map Block.usable).sum < 2 ^ 64
  amount : ∀ b ∈ s.blocks, oldAmount b cfg ≤ b.usable

variable {cfg} {s : State} {size addr usable ptr : ℕ} {b : Block}

theorem Accounts.used_le (h : Accounts cfg s) : s.usedMemory ≤ (s.blocks.map Block.usable).sum :=
  h.used.trans_le (List.sum_le_sum h.amount)

theorem newBlock_eq {blocks : List Block} (h : Grants cfg blocks size addr usable) :
    ∃ b, newBlock size addr usable cfg = some (b, oldAmount b cfg) ∧ b.usable = usable ∧
      oldAmount b cfg ≤ usable := by
  obtain ⟨-, hwrap, hle, -⟩ := h
  cases cfg with
  | mallocSize => exact ⟨_, rfl, rfl, Nat.le_refl _⟩
  | storedSize =>
    rw [Config.prefixSize] at hwrap hle
    refine ⟨⟨addr, usable, size⟩, by rw [newBlock, if_neg (by omega)]; rfl, rfl, ?_⟩
    rwa [oldAmount, Nat.mod_eq_of_lt hwrap]

theorem zmalloc_accounts (h : Accounts cfg s) (hgrant : Grants cfg s.blocks size addr usable) :
    ∃ s' p, zmalloc cfg size addr usable s = some (s', p) ∧ Accounts cfg s' := by
  have hused := h.used_le
  have hfits := hgrant.fits
  obtain ⟨b, hb, rfl, hle⟩ := newBlock_eq hgrant
  rw [zmalloc, hb]
  refine ⟨_, _, rfl, ?_, ?_, List.forall_mem_cons.mpr ⟨hle, h.amount⟩⟩
  · show (s.usedMemory + oldAmount b cfg) % 2 ^ 64 = ((b :: s.blocks).map _).sum
    rw [Nat.mod_eq_of_lt (by omega), h.used, Nat.add_comm, List.map_cons, List.sum_cons]
  · show ((b :: s.blocks).map Block.usable).sum < _
    rw [List.map_cons, List.sum_cons]
    omega

theorem zfree_accounts (h : Accounts cfg s) (hne : ptr ≠ 0) (hb : block cfg ptr s = some b) :
    ∃ s', zfree cfg ptr s = some s' ∧ Accounts cfg s' ∧ s'.blocks = s.blocks.erase b := by
  have hmem := List.mem_of_find?_eq_some hb
  have hold := List.sum_map_erase (oldAmount · cfg) hmem
  have husable := List.sum_map_erase Block.usable hmem
  have hused := h.used
  have hle := h.used_le
  have hfits := h.fits
  rw [zfree, if_neg hne, hb]
  refine ⟨_, rfl, ⟨?_, ?_, fun a ha => h.amount a (List.mem_of_mem_erase ha)⟩, rfl⟩
  · show (s.usedMemory + (2 ^ 64 - oldAmount b cfg)) % 2 ^ 64 = ((s.blocks.erase b).map _).sum
    omega
  · show ((s.blocks.erase b).map _).sum < _
    omega

/-- A block is exchanged as if it was freed first. -/
theorem zrealloc_eq (hsize : size ≠ 0) (hne : ptr ≠ 0) (hb : block cfg ptr s = some b) :
    zrealloc cfg ptr size addr usable s = (zfree cfg ptr s).bind
      (zmalloc cfg size addr usable) := by
  rw [zrealloc, if_neg fun h => hsize h.1, if_neg hne, zfree, if_neg hne, hb]
  rfl

theorem step_accounts (call : Call) (h : Accounts cfg s) (hvalid : Valid cfg s call) :
    ∃ s' p, step cfg s call = some (s', p) ∧ Accounts cfg s' := by
  cases call with
  | zmalloc size addr usable | zcalloc size addr usable => exact zmalloc_accounts h hvalid
  | zrealloc ptr size addr usable =>
    rw [Valid] at hvalid
    rw [step]
    split_ifs at hvalid with hptr
    · rw [zrealloc, if_neg fun hcond => hcond.2 hptr, if_pos hptr]
      exact zmalloc_accounts h hvalid
    · obtain ⟨b, hb, hgrant⟩ := hvalid
      obtain ⟨s', hfree, h', hblocks⟩ := zfree_accounts h hptr hb
      by_cases hsize : size = 0
      · rw [zrealloc, if_pos ⟨hsize, hptr⟩, hfree]
        exact ⟨s', 0, rfl, h'⟩
      · rw [zrealloc_eq hsize hptr hb, hfree]
        exact zmalloc_accounts h' (hblocks ▸ hgrant.resolve_left hsize)
  | zfree ptr =>
    by_cases hptr : ptr = 0
    · subst hptr
      exact ⟨s, 0, rfl, h⟩
    · obtain ⟨b, hb⟩ := Option.isSome_iff_exists.mp (hvalid.resolve_left hptr)
      obtain ⟨s', hfree, h', -⟩ := zfree_accounts h hptr hb
      exact ⟨s', 0, by rw [step, hfree]; rfl, h'⟩

/-- **The count of used memory is exact.**  It is what freeing every block would subtract. -/
theorem usedMemory_exact (cfg : Config) (calls : List Call)
    (hcalls : Runs.Meets (step cfg) (Valid cfg) ⟨0, []⟩ calls) :
    ∃ s ptrs, Runs.run (step cfg) ⟨0, []⟩ calls = some (s, ptrs) ∧
      s.usedMemory = (s.blocks.map (oldAmount · cfg)).sum := by
  have hinit : Accounts cfg ⟨0, []⟩ := ⟨rfl, by decide, by rintro _ ⟨⟩⟩
  obtain ⟨s, ptrs, hrun, h⟩ := Runs.run_invariant (fun _ call => step_accounts call) hinit hcalls
  exact ⟨s, ptrs, hrun, h.used⟩

/-- Two blocks, one of which grows and one of which is freed, and one from `NULL`. -/
theorem usedMemory_exact_run : ∃ s ptrs,
    Runs.run (step .storedSize) ⟨0, []⟩ [.zmalloc 10 16 24, .zcalloc 5 512 13,
      .zrealloc 24 100 64 128, .zfree 520, .zrealloc 0 0 256 8] = some (s, ptrs) ∧
      s.usedMemory = (s.blocks.map (oldAmount · .storedSize)).sum := by
  have hfirst : Grants .storedSize [] 10 16 24 := by constructor <;> decide
  have hsecond : Grants .storedSize [⟨16, 24, 10⟩] 5 512 13 := by constructor <;> decide
  have hgrown : Grants .storedSize [⟨512, 13, 5⟩] 100 64 128 := by constructor <;> decide
  have hempty : Grants .storedSize [⟨64, 128, 100⟩] 0 256 8 := by constructor <;> decide
  refine usedMemory_exact _ _ ?_
  simp [Runs.Meets, Valid, step, zmalloc, zcalloc, zrealloc, zfree, block, newBlock,
    Config.prefixSize, updateZmallocStatAlloc, updateZmallocStatFree, oldAmount, hfirst, hsecond,
    hgrown, hempty]

end Zmalloc
