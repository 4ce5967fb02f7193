/-
Texts with holes.

A text is a list of letters in which a piece may be missing: a hole with a key, to be
filled later (`fill`).  `letters` are the letters that are there and `holes` the keys
of what is missing.
-/
import Mathlib.Data.List.Basic

universe u v

namespace Holes

variable {α : Type u} {κ : Type v}

/-- A text without holes. -/
def ofList (s : List α) : List (α ⊕ κ) := s.map .inl

/-- The letters of a text. -/
def letters (t : List (α ⊕ κ)) : List α := t.filterMap Sum.getLeft?

/-- The keys of the holes of a text, in order. -/
def holes (t : List (α ⊕ κ)) : List κ := t.filterMap Sum.getRight?

@[simp] theorem ofList_nil : (ofList [] : List (α ⊕ κ)) = [] := rfl

@[simp] theorem ofList_append (s s' : List α) :
    (ofList (s ++ s') : List (α ⊕ κ)) = ofList s ++ ofList s' := List.map_append

@[simp] theorem length_ofList (s : List α) : (ofList s : List (α ⊕ κ)).length = s.length :=
  List.length_map _

@[simp] theorem letters_append (t t' : List (α ⊕ κ)) :
    letters (t ++ t') = letters t ++ letters t' := List.filterMap_append

@[simp] theorem letters_ofList (s : List α) : letters (ofList s : List (α ⊕ κ)) = s := by
  induction s with
  | nil => rfl
  | cons a s ih => exact congrArg (a :: ·) ih

@[simp] theorem letters_hole (k : κ) : letters ([.inr k] : List (α ⊕ κ)) = [] := rfl

@[simp] theorem holes_append (t t' : List (α ⊕ κ)) : holes (t ++ t') = holes t ++ holes t' :=
  List.filterMap_append

@[simp] theorem holes_ofList (s : List α) : holes (ofList s : List (α ⊕ κ)) = [] := by
  induction s with
  | nil => rfl
  | cons a s ih => exact ih

@[simp] theorem holes_hole (k : κ) : holes ([.inr k] : List (α ⊕ κ)) = [k] := rfl

variable [DecidableEq κ]

/-- What stands for a letter or a hole once the hole `k` is filled with `s`. -/
def fillAt (k : κ) (s : List α) : α ⊕ κ → List (α ⊕ κ)
  | .inl a => [.inl a]
  | .inr j => if j = k then ofList s else [.inr j]

/-- Fill the hole `k` with `s`. -/
def fill (k : κ) (s : List α) (t : List (α ⊕ κ)) : List (α ⊕ κ) := t.flatMap (fillAt k s)

@[simp] theorem fill_append (k : κ) (s : List α) (t t' : List (α ⊕ κ)) :
    fill k s (t ++ t') = fill k s t ++ fill k s t' := List.flatMap_append

@[simp] theorem fill_ofList (k : κ) (s u : List α) : fill k s (ofList u) = ofList u := by
  induction u with
  | nil => rfl
  | cons a u ih => exact congrArg (.inl a :: ·) ih

theorem fill_hole_self (k : κ) (s : List α) : fill k s [.inr k] = ofList s := by
  simp [fill, fillAt]

theorem fill_hole_of_ne {j k : κ} (h : j ≠ k) (s : List α) : fill k s [.inr j] = [.inr j] := by
  simp [fill, fillAt, h]

/-- Without the hole nothing changes. -/
theorem fill_of_not_mem {k : κ} (s : List α) {t : List (α ⊕ κ)} (h : k ∉ holes t) :
    fill k s t = t := by
  induction t with
  | nil => rfl
  | cons x t ih =>
    rw [← List.singleton_append, holes_append, List.mem_append, not_or] at h
    rw [← List.singleton_append, fill_append, ih h.2]
    cases x with
    | inl a => rfl
    | inr j =>
      rw [fill_hole_of_ne]
      rintro rfl
      exact h.1 (List.mem_singleton.mpr rfl)

/-- The other holes stay. -/
theorem holes_fill (k : κ) (s : List α) (t : List (α ⊕ κ)) :
    holes (fill k s t) = (holes t).filter (· ≠ k) := by
  induction t with
  | nil => rfl
  | cons x t ih =>
    rw [← List.singleton_append, fill_append, holes_append, holes_append, List.filter_append, ih]
    congr 1
    cases x with
    | inl a => rfl
    | inr j =>
      rcases eq_or_ne j k with rfl | hne
      · rw [fill_hole_self]
        simp
      · rw [fill_hole_of_ne hne]
        simp [hne]

/-- Filling adds letters, if it adds any, where there is a hole. -/
theorem length_letters_fill (k : κ) (s : List α) (t : List (α ⊕ κ)) :
    (letters (fill k s t)).length = (letters t).length + (holes t).count k * s.length := by
  induction t with
  | nil => simp [fill, letters, holes]
  | cons x t ih =>
    rw [← List.singleton_append, fill_append, letters_append, letters_append, holes_append,
      List.length_append, List.length_append, List.count_append, ih]
    have hx : (letters (fill k s [x])).length
        = (letters [x]).length + (holes [x]).count k * s.length := by
      cases x with
      | inl a => exact (Nat.zero_mul s.length).symm ▸ rfl
      | inr j =>
        rcases eq_or_ne j k with rfl | hne
        · rw [fill_hole_self]
          simp
        · rw [fill_hole_of_ne hne]
          simp [hne]
    rw [hx, Nat.add_mul]
    omega

end Holes
