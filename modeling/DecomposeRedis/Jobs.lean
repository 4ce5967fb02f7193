/-
Jobs that are handed to threads.

A list of jobs is dealt out in turns (`dealt`), and the threads work on their shares
at the same time, so that all together they do the jobs in some order of their own
(`flatMap_dealt_perm`).  If jobs for different keys commute, this order does not matter
(`foldlM_perm`), and a second pass over the list can as well be made job by job
together with the first one (`foldlM_phases`).  If each job works on the part of the
state that belongs to its key, a pass does to every part what its job does (`foldlM_local`).
-/
import Mathlib.Data.List.Perm.Basic
import Mathlib.Data.List.Nodup
import Mathlib.Data.List.Range
import Mathlib.Logic.Function.Basic

namespace Jobs

/-! ### What ends well -/

section Inversion

variable {ε α β : Type} {x : Except ε α} {b : β}

theorem bind_eq_ok {f : α → Except ε β} (h : x.bind f = .ok b) : ∃ a, x = .ok a ∧ f a = .ok b := by
  cases x with
  | error e => cases h
  | ok a => exact ⟨a, rfl, h⟩

theorem map_eq_ok {f : α → β} (h : x.map f = .ok b) : ∃ a, x = .ok a ∧ f a = b := by
  cases x with
  | error e => cases h
  | ok a => exact ⟨a, rfl, Except.ok.inj h⟩

theorem mapError_eq_ok {ε' : Type} {f : ε → ε'} {a : α} (h : x.mapError f = .ok a) : x = .ok a := by
  cases x with
  | error e => cases h
  | ok a' => exact congrArg _ (Except.ok.inj h)

end Inversion

section Dealt

variable {α : Type}

/-- The share of thread `k` out of `n` threads. -/
def dealt (n : ℕ) (l : List α) (k : ℕ) : List α :=
  (l.zipIdx.filter fun x => x.2 % n = k).map Prod.fst

theorem flatMap_filter_perm (l : List α) (f : α → ℕ) (n : ℕ) :
    ((List.range n).flatMap fun k => l.filter fun x => f x = k).Perm
      (l.filter fun x => f x < n) := by
  induction n with
  | zero => simp
  | succ n ih =>
    have hsplit := List.filter_append_perm (fun x => decide (f x < n)) (l.filter fun x =>
      f x < n + 1)
    rw [List.filter_filter, List.filter_filter] at hsplit
    have hlt : (fun x => decide (f x < n) && decide (f x < n + 1)) = fun x => decide (f x < n) := by
      funext x
      simp only [← Bool.decide_and]
      exact decide_eq_decide.mpr (by omega)
    have heq : (fun x => (!decide (f x < n)) && decide (f x < n + 1)) = fun x =>
        decide (f x = n) := by
      funext x
      simp only [← decide_not, ← Bool.decide_and]
      exact decide_eq_decide.mpr (by omega)
    rw [hlt, heq] at hsplit
    rw [List.range_succ, List.flatMap_append, List.flatMap_singleton]
    exact (ih.append_right _).trans hsplit

/-- The shares are the whole list. -/
theorem flatMap_dealt_perm {n : ℕ} (hn : 0 < n) (l : List α) :
    ((List.range n).flatMap (dealt n l)).Perm l := by
  have hperm := (flatMap_filter_perm l.zipIdx (fun x => x.2 % n) n).map Prod.fst
  rw [List.filter_eq_self.mpr fun x _ => decide_eq_true (Nat.mod_lt x.2 hn), List.zipIdx_map_fst,
    List.map_flatMap] at hperm
  exact hperm

end Dealt

section Passes

variable {σ ι κ : Type} (I : σ → Prop) (key : ι → κ)

/-- Jobs of two kinds commute, if they are for different keys. -/
def Commute (f g : σ → ι → Option σ) : Prop :=
  ∀ s x y, I s → key x ≠ key y → (f s x).bind (g · y) = (g s y).bind (f · x)

/-- The jobs keep an invariant. -/
def Keeps (f : σ → ι → Option σ) : Prop :=
  ∀ s x s', I s → f s x = some s' → I s'

variable {I key} {f g : σ → ι → Option σ} {s : σ} {l : List ι}

theorem Keeps.foldlM (h : Keeps I f) {s' : σ} (hs : I s) (hrun : l.foldlM f s = some s') :
    I s' := by
  induction l generalizing s with
  | nil => exact Option.some.inj hrun ▸ hs
  | cons x l ih =>
    rw [List.foldlM_cons] at hrun
    obtain ⟨s₁, hfx, hrun⟩ := Option.bind_eq_some_iff.mp hrun
    exact ih (h s x s₁ hs hfx) hrun

/-- Jobs that do the same as long as the invariant holds. -/
theorem foldlM_congr (hf : Keeps I f) (h : ∀ s x, I s → g s x = f s x) (hs : I s) :
    l.foldlM g s = l.foldlM f s := by
  induction l generalizing s with
  | nil => rfl
  | cons x l ih =>
    rw [List.foldlM_cons, List.foldlM_cons, h s x hs]
    rcases hfx : f s x with _ | s₁
    · rfl
    · exact ih (hf s x s₁ hs hfx)

/-- A job commutes with a pass that has no job for its key. -/
theorem bind_foldlM_comm (hc : Commute I key f g) (hg : Keeps I g) {x : ι} (hs : I s)
    (hx : key x ∉ l.map key) : (f s x).bind (l.foldlM g) = (l.foldlM g s).bind (f · x) := by
  induction l generalizing s with
  | nil => exact Option.bind_fun_some _
  | cons y l ih =>
    rw [List.map_cons, List.mem_cons, not_or] at hx
    have hstep : (f s x).bind ((y :: l).foldlM g) = ((f s x).bind (g · y)).bind (l.foldlM g) := by
      rw [Option.bind_assoc]
      rfl
    rw [hstep, hc s x y hs hx.1, Option.bind_assoc, List.foldlM_cons]
    rcases hgy : g s y with _ | s₁
    · rfl
    · exact ih (hg s y s₁ hs hgy) hx.2

/-- **The order** in which the threads do the jobs does not matter. -/
theorem foldlM_perm (hc : Commute I key f f) (hf : Keeps I f) {l' : List ι} (h : l.Perm l')
    (hn : (l.map key).Nodup) (hs : I s) : l.foldlM f s = l'.foldlM f s := by
  induction h generalizing s with
  | nil => rfl
  | cons x _ ih =>
    rw [List.map_cons, List.nodup_cons] at hn
    rw [List.foldlM_cons, List.foldlM_cons]
    rcases hfx : f s x with _ | s₁
    · rfl
    · exact ih hn.2 (hf s x s₁ hs hfx)
  | swap x y l =>
    rw [List.map_cons, List.map_cons, List.nodup_cons, List.mem_cons, not_or] at hn
    have hswap := congrArg (Option.bind · (l.foldlM f)) (hc s y x hs hn.1.1)
    simp only [Option.bind_assoc] at hswap
    exact hswap
  | trans h₁ _ ih₁ ih₂ => exact (ih₁ hn hs).trans (ih₂ ((h₁.map key).nodup_iff.mp hn) hs)

/-- **Two passes** over the list are as good as one that does both jobs for each
element. -/
theorem foldlM_phases (hc : Commute I key g f) (hf : Keeps I f) (hg : Keeps I g)
    (hn : (l.map key).Nodup) (hs : I s) :
    (l.foldlM f s).bind (l.foldlM g) = l.foldlM (fun s x => (f s x).bind (g · x)) s := by
  induction l generalizing s with
  | nil => rfl
  | cons x l ih =>
    rw [List.map_cons, List.nodup_cons] at hn
    rw [List.foldlM_cons, List.foldlM_cons]
    rcases hfx : f s x with _ | s₁
    · rfl
    have hs₁ := hf s x s₁ hs hfx
    have hpass : (l.foldlM f s₁).bind ((x :: l).foldlM g)
        = ((l.foldlM f s₁).bind (g · x)).bind (l.foldlM g) := by
      rw [Option.bind_assoc]
      rfl
    -- the second job for `x` is moved before the other first jobs
    show (l.foldlM f s₁).bind ((x :: l).foldlM g) = (g s₁ x).bind _
    rw [hpass, ← bind_foldlM_comm hc hf hs₁ hn.1, Option.bind_assoc]
    rcases hgx : g s₁ x with _ | s₂
    · rfl
    · exact ih hn.2 (hg s₁ x s₂ hs₁ hgx)

end Passes

section Local

variable {σ ι κ τ ε : Type} [DecidableEq κ] (view : σ → κ → τ) (key : ι → κ) (I : List ι → σ → Prop)

/-- A job does to the part of the state for its key what `loc` says, and leaves the
other parts alone.  The invariant knows the jobs that are still to be done. -/
def Local (loc : ι → τ → Except ε τ) (job : σ → ι → Except ε σ) : Prop :=
  ∀ s x rest, I (x :: rest) s →
    match loc x (view s (key x)) with
    | .error e => job s x = .error e
    | .ok t => ∃ s', job s x = .ok s' ∧ I rest s' ∧ view s' = Function.update (view s) (key x) t

variable {view key I} {loc : ι → τ → Except ε τ} {job : σ → ι → Except ε σ}

/-- **A pass** of such jobs fails if one of them does, and otherwise does them all. -/
theorem foldlM_local (h : Local view key I loc job) {l : List ι} {s : σ} (hn : (l.map key).Nodup)
    (hs : I l s) :
    match l.foldlM job s with
    | .error e => ∃ x ∈ l, loc x (view s (key x)) = .error e
    | .ok s' => I [] s' ∧ (∀ y, y ∉ l.map key → view s' y = view s y)
        ∧ ∀ x ∈ l, loc x (view s (key x)) = .ok (view s' (key x)) := by
  induction l generalizing s with
  | nil => exact ⟨hs, fun _ _ => rfl, nofun⟩
  | cons x l ih =>
    rw [List.map_cons, List.nodup_cons] at hn
    have hx := h s x l hs
    rw [List.foldlM_cons]
    rcases hloc : loc x (view s (key x)) with e | t
    · rw [hloc] at hx
      rw [hx]
      exact ⟨x, List.mem_cons_self, hloc⟩
    · rw [hloc] at hx
      obtain ⟨s₁, hjob, hs₁, hview⟩ := hx
      rw [hjob]
      show match l.foldlM job s₁ with | .error e => _ | .ok s' => _
      have hrest := ih hn.2 hs₁
      -- the other jobs see what they saw before
      have hother : ∀ y ∈ l, view s₁ (key y) = view s (key y) := by
        intro y hy
        rw [hview]
        refine Function.update_of_ne (fun heq => hn.1 ?_) _ _
        exact heq ▸ List.mem_map.mpr ⟨y, hy, rfl⟩
      rcases hfold : l.foldlM job s₁ with e | s'
      · rw [hfold] at hrest
        obtain ⟨y, hy, herr⟩ := hrest
        exact ⟨y, List.mem_cons_of_mem _ hy, hother y hy ▸ herr⟩
      · rw [hfold] at hrest
        obtain ⟨hI, hout, hin⟩ := hrest
        refine ⟨hI, fun y hy => ?_, fun y hy => ?_⟩
        · rw [List.map_cons, List.mem_cons, not_or] at hy
          rw [hout y hy.2, hview, Function.update_of_ne hy.1]
        · rcases List.mem_cons.mp hy with rfl | hy
          · rw [hloc, hout _ hn.1, hview, Function.update_self]
          · rw [← hother y hy]
            exact hin y hy

end Local

end Jobs
