/-
Programs that put questions to the outside and go on with the answers.

What is outside is a relation: in a state of the world a question has some
answers, each with the state it leaves.  A program then either always meets a
postcondition, whatever the answers are, or sometimes meets it, for some of
them; the two are dual (`not_always`).

* `always_bind`, `sometimes_bind` — a program in parts;
* `Always.mono`, `Sometimes.mono` — consequence;
* `always_each` — a loop over a list that may be left early, with an invariant
  over the part that is done.

`Whatever` is the first where nothing is known about the answers; it holds of
every run with given answers (`Whatever.run`).
-/
import Mathlib.Logic.Basic
import Mathlib.Data.List.Basic

namespace Dialogue

/-- A program that asks `Q`s, is answered by `A`s, and may crash. -/
inductive Program {Q : Type} (A : Q → Type) (ε α : Type) : Type
  | pure (a : α)
  | fail (e : ε)
  | ask (q : Q) (next : A q → Program A ε α)

variable {Q : Type} {A : Q → Type} {ε α β ι τ σ : Type}

def Program.bind : Program A ε α → (α → Program A ε β) → Program A ε β
  | .pure a, f => f a
  | .fail e, _ => .fail e
  | .ask q next, f => .ask q fun a => (next a).bind f

instance : Monad (Program A ε) where
  pure := .pure
  bind := .bind

theorem bind_pure_eq (a : α) (f : α → Program A ε β) : (pure a : Program A ε α) >>= f = f a := rfl

/-- One question. -/
def request (q : Q) : Program A ε (A q) := .ask q .pure

/-- A loop that is left as soon as its body says so; the flag tells whether it ran to its end. -/
def each (body : τ → ι → Program A ε (τ × Bool)) : τ → List ι → Program A ε (τ × Bool)
  | t, [] => pure (t, true)
  | t, i :: l => do
    let r ← body t i
    if r.2 then each body r.1 l else pure (r.1, false)

variable {body : τ → ι → Program A ε (τ × Bool)}

/-- What a loop passes over need not be in its list. -/
theorem each_filter (p : ι → Bool)
    (h : ∀ t i, p i = false → body t i = pure (t, true)) (t : τ) (l : List ι) :
    each body t l = each body t (l.filter p) := by
  induction l generalizing t with
  | nil => rfl
  | cons i l ih =>
    cases hi : p i with
    | true =>
      rw [List.filter_cons_of_pos hi, each, each]
      simp only [ih]
    | false =>
      rw [List.filter_cons_of_neg (by rw [hi]; exact Bool.false_ne_true), each, h t i hi]
      exact ih t

/-- The answers that a question may get in a state of the world, with the state after them. -/
abbrev World (A : Q → Type) (σ : Type) := σ → (q : Q) → A q → σ → Prop

section Logic

variable (world : World A σ) (crash : ε → Prop) (post : α → σ → Prop)

/-- Whatever the answers are, a result meets the postcondition. -/
def Always : Program A ε α → σ → Prop
  | .pure a, w => post a w
  | .fail e, _ => crash e
  | .ask q next, w => ∀ a w', world w q a w' → Always (next a) w'

/-- For some answers there is a result that meets the postcondition. -/
def Sometimes : Program A ε α → σ → Prop
  | .pure a, w => post a w
  | .fail e, _ => crash e
  | .ask q next, w => ∃ a w', world w q a w' ∧ Sometimes (next a) w'

theorem always_bind (p : Program A ε α) (f : α → Program A ε β) (post : β → σ → Prop) (w : σ) :
    Always world crash post (p >>= f) w ↔
      Always world crash (fun a w' => Always world crash post (f a) w') p w := by
  induction p generalizing w with
  | pure a => exact Iff.rfl
  | fail e => exact Iff.rfl
  | ask q next ih =>
    exact forall_congr' fun a => forall_congr' fun w' => imp_congr_right fun _ => ih a w'

theorem sometimes_bind (p : Program A ε α) (f : α → Program A ε β) (post : β → σ → Prop) (w : σ) :
    Sometimes world crash post (p >>= f) w ↔
      Sometimes world crash (fun a w' => Sometimes world crash post (f a) w') p w := by
  induction p generalizing w with
  | pure a => exact Iff.rfl
  | fail e => exact Iff.rfl
  | ask q next ih =>
    exact exists_congr fun a => exists_congr fun w' => and_congr_right fun _ => ih a w'

/-- A program that does not always meet a postcondition sometimes misses it. -/
theorem not_always (p : Program A ε α) (w : σ) :
    ¬ Always world crash post p w ↔ Sometimes world (fun e => ¬ crash e)
      (fun a w' => ¬ post a w') p w := by
  induction p generalizing w with
  | pure a => exact Iff.rfl
  | fail e => exact Iff.rfl
  | ask q next ih =>
    simp only [Always, Sometimes, not_forall, exists_prop, ih]

end Logic

variable {world : World A σ} {crash : ε → Prop} {p : Program A ε α} {post post' : α → σ → Prop}
  {w : σ} {f : α → Program A ε β}

theorem Always.mono (h : Always world crash post p w)
    (hpost : ∀ a w', post a w' → post' a w') : Always world crash post' p w := by
  induction p generalizing w with
  | pure a => exact hpost a w h
  | fail e => exact h
  | ask q next ih => exact fun a w' hw => ih a (h a w' hw)

theorem Sometimes.mono (h : Sometimes world crash post p w)
    (hpost : ∀ a w', post a w' → post' a w') : Sometimes world crash post' p w := by
  induction p generalizing w with
  | pure a => exact hpost a w h
  | fail e => exact h
  | ask q next ih =>
    obtain ⟨a, w', hw, h⟩ := h
    exact ⟨a, w', hw, ih a h⟩

/-- What a part guarantees is what the rest may assume. -/
theorem Always.bind {post' : β → σ → Prop}
    (h : Always world crash post p w) (hf : ∀ a w', post a w' → Always world crash post' (f a) w') :
    Always world crash post' (p >>= f) w :=
  (always_bind world crash p f post' w).mpr (h.mono hf)

theorem Sometimes.bind {post' : β → σ → Prop}
    (h : Sometimes world crash post p w)
    (hf : ∀ a w', post a w' → Sometimes world crash post' (f a) w') :
    Sometimes world crash post' (p >>= f) w :=
  (sometimes_bind world crash p f post' w).mpr (h.mono hf)

theorem always_ite {P : Prop} [Decidable P] {p' : Program A ε α}
    (h : P → Always world crash post p w) (h' : ¬ P → Always world crash post p' w) :
    Always world crash post (if P then p else p') w := by
  split_ifs with hP
  · exact h hP
  · exact h' hP

/-- The rule for a loop: the invariant is about the part of the list that is done. -/
theorem always_each {post : τ × Bool → σ → Prop} (inv : List ι → τ → σ → Prop) {l : List ι} {t : τ}
    (hinit : inv [] t w) (hstep : ∀ done i rest, l = done ++ i :: rest → ∀ t w, inv done t w →
      Always world crash (fun r w' => if r.2 then inv (done ++ [i]) r.1 w'
        else post (r.1, false) w') (body t i) w)
    (hend : ∀ t w, inv l t w → post (t, true) w) : Always world crash post (each body t l) w := by
  suffices h : ∀ done rest, l = done ++ rest → ∀ t w, inv done t w →
      Always world crash post (each body t rest) w from
    h [] l rfl t w hinit
  intro done rest
  induction rest generalizing done with
  | nil =>
    intro hl t w h
    rw [List.append_nil] at hl
    exact hend t w (hl ▸ h)
  | cons i rest ih =>
    intro hl t w h
    refine (hstep done i rest hl t w h).bind fun r w' hr => ?_
    split_ifs with hgo
    · rw [if_pos hgo] at hr
      exact ih (done ++ [i]) (by rw [hl, List.append_assoc]; rfl) r.1 w' hr
    · rw [if_neg hgo] at hr
      exact hr

/-! ### Any answers -/

/-- Every result meets the postcondition, whatever the answers are. -/
def Whatever (post : α → Prop) (p : Program A ε α) : Prop :=
  Always (fun _ _ _ _ => True) (fun _ => True) (fun a _ => post a) p ()

/-- The program with given answers: those to its `k`-th question, the next and so on. -/
def Program.run (answer : ℕ → (q : Q) → A q) : ℕ → Program A ε α → Except ε α
  | _, .pure a => .ok a
  | _, .fail e => .error e
  | k, .ask q next => (next (answer k q)).run answer (k + 1)

section Free

variable {post : α → Prop} {post' : β → Prop} {p : Program A ε α} {f : α → Program A ε β}
  {l : List ι} {t : τ}

@[simp]
theorem whatever_pure (a : α) : Whatever post (pure a : Program A ε α) ↔ post a := Iff.rfl

theorem Whatever.mono {post' : α → Prop} (h : Whatever post p) (hpost : ∀ a, post a → post' a) :
    Whatever post' p :=
  Always.mono h fun a _ => hpost a

theorem Whatever.bind (h : Whatever post p) (hf : ∀ a, post a → Whatever post' (f a)) :
    Whatever post' (p >>= f) :=
  Always.bind h fun a _ => hf a

/-- A single run is one of those that are possible. -/
theorem Whatever.run {answer : ℕ → (q : Q) → A q} {k : ℕ} {a : α} (h : Whatever post p)
    (hrun : p.run answer k = .ok a) : post a := by
  rw [Whatever] at h
  induction p generalizing k with
  | pure b =>
    cases hrun
    exact h
  | fail e => cases hrun
  | ask q next ih => exact ih _ (h _ () trivial) hrun

theorem whatever_ite {P : Prop} [Decidable P] {p' : Program A ε α} (h : P → Whatever post p)
    (h' : ¬ P → Whatever post p') : Whatever post (if P then p else p') := always_ite h h'

theorem whatever_any (p : Program A ε α) : Whatever (fun _ => True) p := by
  rw [Whatever]
  induction p with
  | pure a => trivial
  | fail e => trivial
  | ask q next ih => exact fun a _ _ => ih a

/-- After a part the program stops, or it goes on. -/
theorem whatever_guard {P : α → Prop} [DecidablePred P] {g : α → Program A ε β}
    (h : ∀ a, Whatever post' (f a)) (h' : ∀ a, Whatever post' (g a)) :
    Whatever post' (p >>= fun a => if P a then f a else g a) :=
  (whatever_any p).bind fun a _ => whatever_ite (fun _ => h a) fun _ => h' a

theorem whatever_each {post : τ × Bool → Prop} (inv : List ι → τ → Prop) (hinit : inv [] t)
    (hstep : ∀ done i rest, l = done ++ i :: rest → ∀ t, inv done t →
      Whatever (fun r => if r.2 then inv (done ++ [i]) r.1 else post (r.1, false)) (body t i))
    (hend : ∀ t, inv l t → post (t, true)) : Whatever post (each body t l) :=
  always_each (fun done t _ => inv done t) hinit
    (fun done i rest hl t _ h => hstep done i rest hl t h) fun t _ => hend t

end Free

end Dialogue
