import SmallPascal.Proofs.Shape

/-! Values that are fitted to another type. What becomes of a value is decided from the two types
alone, all at once; it is the same as if every element had been fitted by itself when it is read,
whether it has been written or stands at the default of its type. -/

namespace SmallPascal

/-- A value of the type `source` as it arrives where the type `target` is expected. -/
def Value.fitted (target source : Ty) (v : Value) : Value :=
  if target.widens source then v.widen else v

namespace Ty

/-- How deep arrays are nested in the type. -/
def depth : Ty → Nat
  | .array _ _ item => item.depth + 1
  | _ => 0

/-- The type of what lies so deep inside nested arrays. -/
def inside : Ty → Nat → Ty
  | .array _ _ item, n + 1 => item.inside n
  | type, _ => type

/-- Offsets into nested arrays, each with the type of what it leads to. -/
def steps : Ty → List Nat → List (Nat × Ty)
  | .array _ _ item, offset :: rest => (offset, item) :: item.steps rest
  | _, _ => []

@[simp] lemma inside_zero (t : Ty) : t.inside 0 = t := by cases t <;> rfl

@[simp] lemma steps_nil (t : Ty) : t.steps [] = [] := by cases t <;> rfl

variable {target source : Ty}

lemma widens_iff_of_accepts (h : target.accepts source) :
    target.widens source ↔ ¬ target.sameAs source := by
  rw [widens_of_accepts_of_not_sameAs h]
  simp

lemma isData_of_accepts_right (h : target.accepts source) : source.isData := by
  fun_induction accepts target source with
  | case1 => rfl
  | case2 _ _ _ _ _ _ ih => simpa only [isData] using ih h
  | case3 s t => exact isData_of_sameAs (sameAs_comm s t ▸ h)

lemma depth_eq_of_accepts (h : target.accepts source) : target.depth = source.depth := by
  fun_induction accepts target source with
  | case1 => rfl
  | case2 _ _ _ _ _ _ ih => exact congrArg (· + 1) (ih h)
  | case3 s t =>
    -- one of the two is no array, and then neither is the other
    cases s <;> cases t <;> simp_all [sameAs, depth]

end Ty

namespace Value

variable {target source : Ty} {v : Value}

lemma HasShape.fitted (h : target.accepts source) (shaped : v.HasShape source) :
    (v.fitted target source).HasShape target := by
  unfold Value.fitted
  split
  next widens => exact shaped.widen h widens
  next same =>
    have agree : target.sameAs source := by
      rw [Ty.widens_iff_of_accepts h] at same
      exact Decidable.of_not_not same
    exact (hasShape_congr agree).2 shaped

lemma fitted_default (h : target.accepts source) :
    source.default.fitted target source = target.default := by
  fun_induction Ty.accepts target source with
  | case1 => decide
  | case2 low high s low' high' t _ =>
    unfold Value.fitted
    split <;> rfl
  | case3 s t _ _ =>
    cases s <;> cases t <;> simp_all [Ty.sameAs] <;> rfl

lemma fitted_array (low high low' high' : Integer) (elements : Elements) :
    (Value.array elements).fitted (.array low high target) (.array low' high' source) =
      .array (if target.widens source then widenElements elements else elements) := by
  unfold Value.fitted
  rw [Ty.widens]
  split <;> rfl

lemma get?_fitted (elements : Elements) (offset : Nat) :
    (if target.widens source then widenElements elements else elements).get? offset =
      (elements.get? offset).map (fitted target source) := by
  unfold Value.fitted
  split
  · exact Elements.get?_widenElements elements offset
  · exact Option.map_id'.symm

/-- **Reading what was fitted is fitting what is read**, along any offsets into the nested
arrays. -/
lemma read?_fitted (h : target.accepts source) (shaped : v.HasShape source) (offsets : List Nat)
    (within : offsets.length ≤ source.depth) :
    ∃ w, v.read? (source.steps offsets) = some w ∧ w.HasShape (source.inside offsets.length) ∧
      (v.fitted target source).read? (target.steps offsets) =
        some (w.fitted (target.inside offsets.length) (source.inside offsets.length)) := by
  induction offsets generalizing target source v with
  | nil => exact ⟨v, by rw [Ty.steps_nil]; rfl, by simpa using shaped, by simp [read?]⟩
  | cons offset rest ih =>
    cases source with
    | array low' high' source =>
      cases target with
      | array low high target =>
        obtain ⟨elements, rfl, items⟩ := hasShape_array.1 shaped
        have accepts : target.accepts source := h
        have element : ((elements.get? offset).getD source.default).HasShape source := by
          rcases found : elements.get? offset with _ | w
          · exact hasShape_default (Ty.isData_of_accepts_right accepts)
          · exact items.get? found
        have same :
          ((if target.widens source then widenElements elements else elements).get? offset).getD
            target.default = ((elements.get? offset).getD source.default).fitted target source := by
          rw [get?_fitted, ← fitted_default accepts]
          cases elements.get? offset <;> rfl
        obtain ⟨w, read, inside, fitted⟩ := ih accepts element (Nat.le_of_succ_le_succ within)
        refine ⟨w, read, inside, ?_⟩
        rw [fitted_array]
        unfold Ty.steps read?
        dsimp only
        rw [same]
        exact fitted
      | _ => cases h
    | _ => exact absurd within (by simp [Ty.depth])

/-- **Fitting a value makes it one of the other type, at every depth.** Between types of which one
accepts the other, values are changed exactly if the types do not agree. The changed value is of the
type that it is fitted to; and wherever offsets lead into its nested arrays, what is read is what
the value itself has there, fitted to the type of what lies so deep, each side having its own
defaults for what is missing. -/
theorem fits_everywhere (h : target.accepts source) (shaped : v.HasShape source) :
    (v.fitted target source).HasShape target ∧ (target.widens source ↔ ¬ target.sameAs source) ∧
      target.depth = source.depth ∧ ∀ offsets : List Nat, offsets.length ≤ target.depth →
        ∃ w, v.read? (source.steps offsets) = some w ∧ w.HasShape (source.inside offsets.length) ∧
          (v.fitted target source).read? (target.steps offsets) =
            some (w.fitted (target.inside offsets.length) (source.inside offsets.length)) := by
  have depth := Ty.depth_eq_of_accepts h
  refine ⟨shaped.fitted h, Ty.widens_iff_of_accepts h, depth, fun offsets within => ?_⟩
  exact read?_fitted h shaped offsets (depth ▸ within)

/-- Rows of integers that become rows of reals; one element is stored, and in one row nothing is. -/
theorem fits_everywhere_rows :
    let rows (item : Ty) : Ty := .array 0 9 (.array 1 3 item)
    let v : Value := .array (.cons 4 (.array (.cons 1 (.integer 7) .nil)) .nil)
    (rows .real).accepts (rows .integer) ∧ v.HasShape (rows .integer) ∧
      (v.fitted (rows .real) (rows .integer)).read? ((rows .real).steps [4, 1]) = some (.real 7) ∧
      (v.fitted (rows .real) (rows .integer)).read? ((rows .real).steps [4, 2]) = some (.real 0) ∧
      (v.fitted (rows .real) (rows .integer)).read? ((rows .real).steps [5]) = some
      (.array .nil) := by
  intro rows v
  have accepts : (rows .real).accepts (rows .integer) := rfl
  have shaped : v.HasShape (rows .integer) := ⟨⟨trivial, trivial⟩, trivial⟩
  have read (offsets : List Nat) := (fits_everywhere accepts shaped).2.2.2 offsets
  refine ⟨accepts, shaped, ?_, ?_, ?_⟩
  · obtain ⟨w, there, -, fitted⟩ := read [4, 1] (by decide)
    cases there
    exact fitted
  · obtain ⟨w, there, -, fitted⟩ := read [4, 2] (by decide)
    cases there
    exact fitted
  · obtain ⟨w, there, -, fitted⟩ := read [5] (by decide)
    cases there
    exact fitted

end Value

end SmallPascal
