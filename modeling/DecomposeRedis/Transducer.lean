/-
Machines that consume a stream piece by piece.

A machine looks at its state and the input that has arrived, and takes one step
if what is there suffices for one.  If more input can only enable steps and never
change them, it does not matter in which pieces the input arrives: running the
machine dry after each piece ends where running it dry on the whole does
(`Feeds.drains`), and that end is unique (`Drains.unique`).

The steps may depend on a condition on all the input that is still to come, as
long as they keep it (`Monotone`).
-/
import Mathlib.Logic.Relation
import Mathlib.Data.List.Basic

universe u v

namespace Transducer

variable {S : Type u} {A : Type v}

/-- Some steps of the machine, each on the input that is left. -/
def Steps (step : S → List A → Option (S × List A)) : S × List A → S × List A → Prop :=
  Relation.ReflTransGen fun a b => step a.1 a.2 = some b

/-- The machine runs until the input does not suffice for another step. -/
structure Drains (step : S → List A → Option (S × List A)) (a b : S × List A) : Prop where
  steps : Steps step a b
  stuck : step b.1 b.2 = none

/-- More input changes no step that was possible without it, in states where the
whole input to come meets the condition `fits`. -/
structure Monotone (step : S → List A → Option (S × List A)) (fits : S → List A → Prop) :
    Prop where
  mono : ∀ s r s' r' y, fits s (r ++ y) → step s r = some (s', r') →
    step s (r ++ y) = some (s', r' ++ y)
  keeps : ∀ s r s' r', fits s r → step s r = some (s', r') → fits s' r'

variable {step : S → List A → Option (S × List A)} {fits : S → List A → Prop}

theorem Steps.refl (a : S × List A) : Steps step a a := Relation.ReflTransGen.refl

theorem Steps.single {s s' : S} {r r' : List A} (h : step s r = some (s', r')) :
    Steps step (s, r) (s', r') :=
  Relation.ReflTransGen.single h

theorem Steps.trans {a b c : S × List A} (h : Steps step a b) (h' : Steps step b c) :
    Steps step a c :=
  Relation.ReflTransGen.trans h h'

/-- An invariant of the machine holds after every run. -/
theorem Steps.invariant {I : S → List A → Prop} (hstep : ∀ s r s' r', I s r →
    step s r = some (s', r') → I s' r') {a b : S × List A} (h : Steps step a b)
    (ha : I a.1 a.2) : I b.1 b.2 := by
  induction h with
  | refl => exact ha
  | tail _ hlast ih => exact hstep _ _ _ _ ih hlast

theorem Steps.append (hm : Monotone step fits) {a b : S × List A} (h : Steps step a b)
    (y : List A) (hfits : fits a.1 (a.2 ++ y)) :
    Steps step (a.1, a.2 ++ y) (b.1, b.2 ++ y) ∧ fits b.1 (b.2 ++ y) := by
  induction h with
  | refl => exact ⟨Steps.refl _, hfits⟩
  | @tail b c _ hlast ih =>
    obtain ⟨hsteps, hb⟩ := ih
    have hlast' := hm.mono b.1 b.2 c.1 c.2 y hb hlast
    exact ⟨hsteps.trans (Steps.single hlast'), hm.keeps _ _ _ _ hb hlast'⟩

/-- Steps are functions, so the end of a run is determined. -/
theorem Drains.eq_of_steps {a b c : S × List A} (h : Drains step a b) (h' : Steps step a c) :
    Steps step c b := by
  induction h' with
  | refl => exact h.steps
  | @tail c d _ hlast ih =>
    rcases Relation.ReflTransGen.cases_head ih with rfl | ⟨d', hd', hrest⟩
    · rw [h.stuck] at hlast
      cases hlast
    · obtain rfl : d' = d := Option.some.inj (hd'.symm.trans hlast)
      exact hrest

theorem Drains.unique {a b c : S × List A} (h : Drains step a b) (h' : Drains step a c) :
    b = c := by
  rcases Relation.ReflTransGen.cases_head (h.eq_of_steps h'.steps) with hcb | ⟨d, hd, -⟩
  · exact hcb.symm
  · rw [h'.stuck] at hd
    cases hd

/-- The input arrives piece by piece, and the machine runs dry on each of them. -/
inductive Feeds (step : S → List A → Option (S × List A)) :
    S × List A → List (List A) → S × List A → Prop
  | nil (a : S × List A) : Feeds step a [] a
  | cons {s : S} {r x : List A} {xs : List (List A)} {b c : S × List A} :
    Drains step (s, r ++ x) b → Feeds step b xs c → Feeds step (s, r) (x :: xs) c

/-- **The pieces do not matter:** running dry on each piece is running dry on the
whole. -/
theorem Feeds.drains (hm : Monotone step fits) {a b : S × List A} {xs : List (List A)}
    (h : Feeds step a xs b) (hstuck : step a.1 a.2 = none)
    (hfits : fits a.1 (a.2 ++ xs.flatten)) : Drains step (a.1, a.2 ++ xs.flatten) b := by
  induction h with
  | nil a =>
    rw [List.flatten_nil, List.append_nil]
    exact ⟨Steps.refl a, hstuck⟩
  | @cons s r x xs b c hx _ ih =>
    rw [List.flatten_cons, ← List.append_assoc] at hfits ⊢
    obtain ⟨hsteps, hb⟩ := hx.steps.append hm xs.flatten hfits
    have hdrains := ih hx.stuck hb
    exact ⟨hsteps.trans hdrains.steps, hdrains.stuck⟩

end Transducer
