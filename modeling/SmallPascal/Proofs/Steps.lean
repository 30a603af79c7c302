import Mathlib.Tactic.Lemma

/-! Computations on a state that may fail. Readers, evaluations and runs of statements are all of
this kind; here is what each way to put them together comes to, and what is true of them whatever
comes of them: they leave a state behind whether they answer or fail. -/

namespace SmallPascal

namespace Steps

variable {ε σ α β : Type}

lemma bind_apply (x : ExceptT ε (StateM σ) α) (f : α → ExceptT ε (StateM σ) β) (s : σ) :
    (x >>= f) s =
      match x s with
      | (.ok a, t) => f a t
      | (.error e, t) => (.error e, t) := by
  change ExceptT.bind x f s = _
  unfold ExceptT.bind ExceptT.bindCont ExceptT.mk
  simp only [bind, StateT.bind]
  rcases x s with ⟨_ | _, _⟩ <;> rfl

lemma bind_of_ok {x : ExceptT ε (StateM σ) α} {f : α → ExceptT ε (StateM σ) β} {s t : σ} {a : α}
    (h : x s = (.ok a, t)) : (x >>= f) s = f a t := by
  rw [bind_apply, h]

/-- Two computations in a row succeed if the first one does and the second one does after it. -/
lemma bind_eq_ok {x : ExceptT ε (StateM σ) α} {f : α → ExceptT ε (StateM σ) β} {s u : σ} {b : β} :
    (x >>= f) s = (.ok b, u) ↔ ∃ a t, x s = (.ok a, t) ∧ f a t = (.ok b, u) := by
  rw [bind_apply]
  rcases x s with ⟨_ | a, t⟩
  · constructor
    · intro h; cases h
    · rintro ⟨a, t, h, -⟩; cases h
  · constructor
    · intro h; exact ⟨a, t, rfl, h⟩
    · rintro ⟨a, t, h, e⟩; cases h; exact e

lemma pure_eq_ok {s t : σ} {a b : α} :
    (pure a : ExceptT ε (StateM σ) α) s = (.ok b, t) ↔ a = b ∧ s = t := by
  change ((Except.ok a, s) : Except ε α × σ) = _ ↔ _
  simp

lemma throw_ne_ok {e : ε} {s t : σ} {a : α} :
    (throw e : ExceptT ε (StateM σ) α) s ≠ (.ok a, t) := by
  change ((Except.error e, s) : Except ε α × σ) ≠ _
  simp

lemma get_self {s : σ} : (get : ExceptT ε (StateM σ) σ) s = (.ok s, s) := rfl

lemma get_eq_ok {s t u : σ} : (get : ExceptT ε (StateM σ) σ) s = (.ok u, t) ↔ s = u ∧ s = t := by
  change ((Except.ok s, s) : Except ε σ × σ) = _ ↔ _
  simp

lemma modify_eq_ok {f : σ → σ} {s t : σ} {u : Unit} :
    (modify f : ExceptT ε (StateM σ) Unit) s = (.ok u, t) ↔ f s = t := by
  change ((Except.ok (), f s) : Except ε Unit × σ) = _ ↔ _
  simp

end Steps

/-! ### Whatever comes of it -/

open Steps

variable {ε σ α β : Type} {inv : σ → Prop} {stops : ε → Prop} {good : α → Prop} {fine : β → Prop}

/-- A good answer, or a failure that is in order. -/
def Accounts (stops : ε → Prop) (good : α → Prop) : Except ε α → Prop
  | .ok a => good a
  | .error e => stops e

/-- The state stays as it is known to be whatever comes of the computation, and that is good or in
order. -/
def Upholds (inv : σ → Prop) (stops : ε → Prop) (good : α → Prop)
    (x : ExceptT ε (StateM σ) α) : Prop :=
  ∀ s, inv s → inv (x s).2 ∧ Accounts stops good (x s).1

lemma Accounts.intro {answer : Except ε α} (refused : ∀ e, stops e)
    (h : ∀ a, answer = .ok a → good a) : Accounts stops good answer := by
  cases answer with
  | ok a => exact h a rfl
  | error e => exact refused e

lemma Accounts.imp {stops' : ε → Prop} {good' : α → Prop} {answer : Except ε α}
    (h : Accounts stops good answer) (refused : ∀ e, stops e → stops' e)
    (weaker : ∀ a, good a → good' a) : Accounts stops' good' answer := by
  cases answer with
  | ok a => exact weaker a h
  | error e => exact refused e h

namespace Upholds

lemma pure {a : α} (h : good a) : Upholds inv stops good (pure a) := fun _ kept => ⟨kept, h⟩

lemma throw {e : ε} (h : stops e) : Upholds inv stops good (throw e) :=
  fun _ kept => ⟨kept, h⟩

lemma imp {good' : α → Prop} {x : ExceptT ε (StateM σ) α} (h : Upholds inv stops good x)
    (weaker : ∀ a, good a → good' a) : Upholds inv stops good' x :=
  fun s kept => (h s kept).imp_right (·.imp (fun _ => id) weaker)

lemma bind {x : ExceptT ε (StateM σ) α} {f : α → ExceptT ε (StateM σ) β}
    (h : Upholds inv stops good x) (next : ∀ a, good a → Upholds inv stops fine (f a)) :
    Upholds inv stops fine (x >>= f) := by
  intro s kept
  have first := h s kept
  rw [bind_apply]
  rcases e : x s with ⟨stop | a, t⟩ <;> rw [e] at first
  · exact first
  · exact next a first.2 t first.1

lemma kept {x : ExceptT ε (StateM σ) α} {answer : Except ε α} {s t : σ}
    (h : Upholds inv stops good x) (kept : inv s) (e : x s = (answer, t)) :
    inv t ∧ Accounts stops good answer := by
  have ended := h s kept
  rwa [e] at ended

end Upholds

end SmallPascal
