import SmallPascal.Proofs.Shape

/-! Which types go together. Agreement tells classes of types apart, and a value may be handed on
from type to type: what arrives could have been stored at once. Types that accept each other agree.
Around the type of a routine there is neither, not even with itself. -/

namespace SmallPascal

namespace Ty

def innermost : Ty → Ty
  | .array _ _ item => item.innermost
  | type => type

/-- Whether the type is that of a function or of a procedure. -/
def isRoutine : Ty → Bool
  | .function .. | .procedure .. => true
  | _ => false

variable {s t u : Ty}

/-- The type of a routine inside all arrays is all that keeps a type from having values. -/
lemma isData_iff : ∀ {t : Ty}, t.isData ↔ ¬ t.innermost.isRoutine
  | .array _ _ item => by simpa only [isData, innermost] using isData_iff (t := item)
  | .integer | .real | .boolean | .string => by decide
  | .function .. | .procedure .. => by simp [isData, innermost, isRoutine]

lemma accepts_congr (h : s.sameAs t) (u : Ty) : s.accepts u = t.accepts u := by
  fun_induction sameAs s t generalizing u with
  | case5 _ _ s _ _ t ih =>
    cases u with
    | array _ _ u => exact ih h u
    | _ => rfl
  | case6 => simp at h
  | _ => rfl

lemma accepts_self : ∀ t : Ty, t.accepts t = t.isData
  | .array _ _ item => by simpa only [accepts, isData] using accepts_self item
  | .integer | .real | .boolean | .string | .function .. | .procedure .. => rfl

lemma accepts_trans (h : s.accepts t) (h' : t.accepts u) : s.accepts u := by
  fun_induction accepts s t generalizing u with
  | case1 =>
    -- only integers become integers
    cases u with
    | integer => rfl
    | _ => cases h'
  | case2 _ _ s _ _ t ih =>
    cases u with
    | array _ _ u => exact ih h h'
    | _ => cases h'
  | case3 s t => rwa [accepts_congr h]

lemma sameAs_of_accepts (h : s.accepts t) (h' : t.accepts s) : s.sameAs t := by
  fun_induction accepts s t with
  | case1 => cases h'
  | case2 _ _ _ _ _ _ ih => exact ih h h'
  | case3 => exact h

lemma sameAs_iff_accepts : s.sameAs t ↔ s.accepts t ∧ t.accepts s := by
  have accepts {s t : Ty} (h : s.sameAs t) : s.accepts t := by
    have data : t.isData := isData_of_sameAs (sameAs_comm s t ▸ h)
    rw [accepts_congr h, accepts_self, data]
  constructor
  · intro h
    exact ⟨accepts h, accepts (sameAs_comm s t ▸ h)⟩
  · rintro ⟨h, h'⟩
    exact sameAs_of_accepts h h'

lemma sameAs_trans (h : s.sameAs t) (h' : t.sameAs u) : s.sameAs u := by
  obtain ⟨up, down⟩ := sameAs_iff_accepts.1 h
  obtain ⟨up', down'⟩ := sameAs_iff_accepts.1 h'
  exact sameAs_of_accepts (accepts_trans up up') (accepts_trans down' down)

abbrev Data := { t : Ty // ¬ t.innermost.isRoutine }

/-- **Acceptance is a preorder, and agreement its kernel**, on the types with no routine inside
them. A type around that of a routine agrees with no type and accepts none. -/
theorem preorder_accepts :
    Equivalence (fun s t : Data => s.1.sameAs t.1 = true) ∧
    (∀ t : Data, t.1.accepts t.1) ∧
    (∀ s t u : Data, s.1.accepts t.1 → t.1.accepts u.1 → s.1.accepts u.1) ∧
    (∀ s t : Data, s.1.accepts t.1 ∧ t.1.accepts s.1 ↔ s.1.sameAs t.1) ∧
    ∀ s : Ty, s.innermost.isRoutine → ∀ t, ¬ s.sameAs t ∧ ¬ s.accepts t := by
  have agrees : Equivalence (fun s t : Data => s.1.sameAs t.1 = true) :=
    { refl := fun t => by rw [sameAs_self, isData_iff.2 t.2]
      symm := fun {s t} h => by rwa [sameAs_comm]
      trans := fun {s t u} => sameAs_trans }
  refine ⟨agrees, fun t => ?_, fun s t u => accepts_trans, fun s t => sameAs_iff_accepts.symm, ?_⟩
  · rw [accepts_self, isData_iff.2 t.2]
  · intro s routine t
    have none : ¬ s.isData := fun data => isData_iff.1 data routine
    exact ⟨fun h => none (isData_of_sameAs h), fun h => none (isData_of_accepts h)⟩

end Ty

end SmallPascal
