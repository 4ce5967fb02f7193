/-
Runs of a system that may fail, one input after the other.

`step` takes a state and an input to the next state and an output, or to `none`
where its behaviour is undefined.  Three induction rules cover the uses here:

* `run_safe` — an invariant that every step keeps which is defined and meets a
  condition in the state it is taken in holds after every such run;
* `run_invariant` — an invariant that every step keeps, as long as the step
  meets a condition in the state it is taken in, holds after every run whose
  steps all meet it (`Meets`), and such a run is defined;
* `run_simulates` — the same for a relation with a specification that is total,
  whose outputs the run then has.
-/
import Mathlib.Data.List.Basic

universe u v w x

namespace Runs

variable {σ : Type u} {ι : Type v} {ο : Type w} {τ : Type x} {is : List ι} {s : σ}

/-- The state after a list of inputs, with the outputs. -/
def run (step : σ → ι → Option (σ × ο)) : σ → List ι → Option (σ × List ο)
  | s, [] => some (s, [])
  | s, i :: is =>
    (step s i).bind fun x => (run step x.1 is).map fun y => (y.1, x.2 :: y.2)

/-- The same for a specification. -/
def specRun (spec : τ → ι → τ × ο) : τ → List ι → τ × List ο
  | t, [] => (t, [])
  | t, i :: is =>
    ((specRun spec (spec t i).1 is).1, (spec t i).2 :: (specRun spec (spec t i).1 is).2)

theorem run_append {step : σ → ι → Option (σ × ο)} {s' : σ} {os : List ο} (js : List ι)
    (h : run step s is = some (s', os)) :
    run step s (is ++ js) = (run step s' js).map fun y => (y.1, os ++ y.2) := by
  induction is generalizing s os with
  | nil =>
    obtain ⟨⟩ := h
    exact Option.map_id'.symm
  | cons i is ih =>
    obtain ⟨⟨s₁, o⟩, hs₁, hrest⟩ := Option.bind_eq_some_iff.mp h
    obtain ⟨⟨s₂, os'⟩, hs₂, heq⟩ := Option.map_eq_some_iff.mp hrest
    obtain ⟨rfl, rfl⟩ := Prod.mk.inj heq
    rw [List.cons_append, run, hs₁, Option.bind_some, ih hs₂, Option.map_map]
    rfl

/-- Every step of the run meets the condition in the state it is taken in. -/
def Meets (step : σ → ι → Option (σ × ο)) (ok : σ → ι → Prop) : σ → List ι → Prop
  | _, [] => True
  | s, i :: is => ok s i ∧ ∀ s' o, step s i = some (s', o) → Meets step ok s' is

/-- A condition on the inputs alone. -/
theorem meets_of_forall {step : σ → ι → Option (σ × ο)} {ok : ι → Prop} (s : σ)
    (h : ∀ i ∈ is, ok i) : Meets step (fun _ => ok) s is := by
  induction is generalizing s with
  | nil => trivial
  | cons i is ih => exact ⟨h i (by simp), fun s' _ _ => ih s' fun j hj => h j (by simp [hj])⟩

variable {step : σ → ι → Option (σ × ο)} {ok : σ → ι → Prop}

theorem Meets.and {ok' : σ → ι → Prop} (h : Meets step ok s is)
    (h' : Meets step ok' s is) : Meets step (fun s i => ok s i ∧ ok' s i) s is := by
  induction is generalizing s with
  | nil => trivial
  | cons i is ih =>
    exact ⟨⟨h.1, h'.1⟩, fun s' o hs => ih (h.2 s' o hs) (h'.2 s' o hs)⟩

instance decidableMeets [∀ s i, Decidable (ok s i)] :
    ∀ (s : σ) (is : List ι), Decidable (Meets step ok s is)
  | _, [] => isTrue trivial
  | s, i :: is =>
    match hs : step s i with
    | none => decidable_of_iff (ok s i) ⟨fun h => ⟨h, fun _ _ h' => nomatch hs.symm.trans h'⟩,
        fun h => h.1⟩
    | some (s', o) =>
      haveI := decidableMeets s' is
      decidable_of_iff (ok s i ∧ Meets step ok s' is)
        ⟨fun h => ⟨h.1, fun _ _ h' => by
            obtain ⟨⟩ := hs.symm.trans h'
            exact h.2⟩,
          fun h => ⟨h.1, h.2 s' o hs⟩⟩

/-- A run goes on from the state where another one ends. -/
theorem Meets.of_append {s' : σ} {js : List ι} {os : List ο} (h : Meets step ok s (is ++ js))
    (hrun : run step s is = some (s', os)) : Meets step ok s is ∧ Meets step ok s' js := by
  induction is generalizing s os with
  | nil =>
    obtain ⟨⟩ := hrun
    exact ⟨trivial, h⟩
  | cons i is ih =>
    obtain ⟨⟨s₁, o⟩, hs₁, hrest⟩ := Option.bind_eq_some_iff.mp hrun
    obtain ⟨⟨s₂, os'⟩, hs₂, heq⟩ := Option.map_eq_some_iff.mp hrest
    obtain ⟨rfl, -⟩ := Prod.mk.inj heq
    obtain ⟨-, hlast⟩ := ih (h.2 s₁ o hs₁) hs₂
    refine ⟨⟨h.1, fun s₁' o' hs₁' => ?_⟩, hlast⟩
    obtain ⟨⟩ := hs₁.symm.trans hs₁'
    exact (ih (h.2 s₁ o hs₁) hs₂).1

/-- A condition that holds wherever an invariant does. -/
theorem meets_of_invariant {I : σ → Prop}
    (hstep : ∀ s i s' o, I s → ok s i → step s i = some (s', o) → I s') (h : I s)
    (his : ∀ s, I s → ∀ i ∈ is, ok s i) : Meets step ok s is := by
  induction is generalizing s with
  | nil => trivial
  | cons i is ih =>
    have hi := his s h i (by simp)
    exact ⟨hi, fun s' o hs => ih (hstep s i s' o h hi hs) fun s hs j hj =>
      his s hs j (by simp [hj])⟩

/-- A condition that every defined step meets. -/
theorem meets_of_run (hstep : ∀ s i s' o, step s i = some (s', o) → ok s i)
    (hrun : run step s is ≠ none) : Meets step ok s is := by
  induction is generalizing s with
  | nil => trivial
  | cons i is ih =>
    rw [run] at hrun
    cases hs : step s i with
    | none => exact absurd (by rw [hs]; rfl) hrun
    | some x =>
      refine ⟨hstep s i x.1 x.2 hs, fun s' o hs' => ih fun hnone => hrun ?_⟩
      obtain rfl := Option.some.inj (hs.symm.trans hs')
      rw [hs, Option.bind_some, hnone]
      rfl

theorem run_safe {I : σ → Prop} (hstep : ∀ s i s' o, I s → ok s i → step s i = some (s', o) → I s')
    {s' : σ} (h : I s) {os : List ο} (his : Meets step ok s is)
    (hrun : run step s is = some (s', os)) : I s' := by
  induction is generalizing s os with
  | nil =>
    obtain ⟨⟩ := hrun
    exact h
  | cons i is ih =>
    obtain ⟨⟨s₁, o⟩, hs₁, hrest⟩ := Option.bind_eq_some_iff.mp hrun
    obtain ⟨⟨s₂, os'⟩, hs₂, heq⟩ := Option.map_eq_some_iff.mp hrest
    obtain ⟨rfl, -⟩ := Prod.mk.inj heq
    exact ih (hstep s i s₁ o h his.1 hs₁) (his.2 s₁ o hs₁) hs₂

theorem run_simulates {R : σ → τ → Prop} {spec : τ → ι → τ × ο} (hstep : ∀ s t i, R s t → ok s i →
      ∃ s', step s i = some (s', (spec t i).2) ∧ R s' (spec t i).1) {t : τ} (h : R s t)
      (his : Meets step ok s is) :
    ∃ s', run step s is = some (s', (specRun spec t is).2) ∧ R s' (specRun spec t is).1 := by
  induction is generalizing s t with
  | nil => exact ⟨s, rfl, h⟩
  | cons i is ih =>
    obtain ⟨hi, his⟩ := his
    obtain ⟨s₁, hs₁, hR₁⟩ := hstep s t i h hi
    obtain ⟨s₂, hs₂, hR₂⟩ := ih hR₁ (his s₁ _ hs₁)
    refine ⟨s₂, ?_, hR₂⟩
    rw [run, hs₁, Option.bind_some, hs₂]
    rfl

theorem run_invariant {I : σ → Prop}
    (hstep : ∀ s i, I s → ok s i → ∃ s' o, step s i = some (s', o) ∧ I s') (h : I s)
    (his : Meets step ok s is) :
    ∃ s' os, run step s is = some (s', os) ∧ I s' := by
  induction is generalizing s with
  | nil => exact ⟨s, [], rfl, h⟩
  | cons i is ih =>
    obtain ⟨hi, his⟩ := his
    obtain ⟨s₁, o, hs₁, hI₁⟩ := hstep s i h hi
    obtain ⟨s₂, os, hs₂, hI₂⟩ := ih hI₁ (his s₁ o hs₁)
    refine ⟨s₂, o :: os, ?_, hI₂⟩
    rw [run, hs₁, Option.bind_some, hs₂]
    rfl

end Runs
