import Mathlib.Tactic.Lemma
import SmallPascal.Evaluation

/-! Which values are of a type. The bounds of an array play no part in it: types that agree have the
same values, and what is not written in an array is of the item type by default. -/

namespace SmallPascal

/-- Whether the type has values of its own: a scalar, or an array with such items. -/
def Ty.isData : Ty → Bool
  | .array _ _ item => item.isData
  | .function .. | .procedure .. => false
  | .integer | .real | .boolean | .string => true

mutual

/-- Whether a value is of a type: a scalar of that sort, or an array whose written elements are all
of the item type. -/
def Value.HasShape : Value → Ty → Prop
  | .integer _, .integer | .real _, .real | .boolean _, .boolean | .string _, .string => True
  | .array elements, .array _ _ item => elements.HaveShape item
  | _, _ => False

/-- Whether all written elements are of a type. -/
def Elements.HaveShape : Elements → Ty → Prop
  | .nil, _ => True
  | .cons _ value rest, item => value.HasShape item ∧ rest.HaveShape item

end

namespace Ty

lemma sameAs_self : ∀ t : Ty, t.sameAs t = t.isData
  | .array _ _ item => by simpa only [sameAs, isData] using sameAs_self item
  | .integer | .real | .boolean | .string | .function .. | .procedure .. => rfl

lemma sameAs_comm (s t : Ty) : s.sameAs t = t.sameAs s := by
  fun_induction sameAs s t with
  | case5 _ _ _ _ _ _ ih => simpa only [sameAs] using ih
  | case6 s t => cases s <;> cases t <;> simp_all [sameAs]
  | _ => rfl

lemma isData_of_sameAs {s t : Ty} (h : s.sameAs t) : s.isData := by
  fun_induction sameAs s t with
  | case5 _ _ _ _ _ _ ih => simpa only [isData] using ih h
  | case6 => simp at h
  | _ => rfl

lemma isData_of_accepts {s t : Ty} (h : s.accepts t) : s.isData := by
  fun_induction accepts s t with
  | case1 => rfl
  | case2 _ _ _ _ _ _ ih => simpa only [isData] using ih h
  | case3 => exact isData_of_sameAs h

lemma isNumeric_iff {t : Ty} : t.isNumeric ↔ t = .integer ∨ t = .real := by
  cases t <;> simp [isNumeric]

end Ty

/-! ### Elements -/

namespace Elements

lemma haveShape_iff {t : Ty} : ∀ elements : Elements,
    elements.HaveShape t ↔ ∀ entry ∈ elements.toList, entry.2.HasShape t
  | .nil => by simp [HaveShape, toList]
  | .cons _ _ rest => by simp [HaveShape, toList, haveShape_iff rest]

lemma HaveShape.get? {t : Ty} {k : Nat} {v : Value} : ∀ {elements : Elements},
    elements.HaveShape t → elements.get? k = some v → v.HasShape t
  | .cons offset value rest, h, e => by
    rw [Elements.get?] at e
    split at e
    · cases e; exact h.1
    · exact h.2.get? e

lemma HaveShape.insert {t : Ty} {k : Nat} {v : Value} {elements : Elements}
    (h : elements.HaveShape t) (hv : v.HasShape t) : (elements.insert k v).HaveShape t := by
  fun_induction Elements.insert elements k v with
  | case1 => exact ⟨hv, h⟩
  | case2 => exact ⟨hv, h⟩
  | case3 => exact ⟨hv, h.2⟩
  | case4 _ _ _ _ _ _ _ ih => exact ⟨h.1, ih h.2 hv⟩

end Elements

/-! ### Values -/

namespace Value

lemma hasShape_integer {v : Value} : v.HasShape .integer ↔ ∃ n, v = .integer n := by
  cases v <;> simp [HasShape]

lemma hasShape_real {v : Value} : v.HasShape .real ↔ ∃ x, v = .real x := by
  cases v <;> simp [HasShape]

lemma hasShape_boolean {v : Value} : v.HasShape .boolean ↔ ∃ b, v = .boolean b := by
  cases v <;> simp [HasShape]

lemma hasShape_array {v : Value} {low high : Integer} {item : Ty} :
    v.HasShape (.array low high item) ↔
      ∃ elements, v = .array elements ∧ elements.HaveShape item := by
  cases v <;> simp [HasShape]

lemma toReal?_isSome {v : Value} {t : Ty} (h : v.HasShape t) (numeric : t.isNumeric) :
    ∃ x, v.toReal? = some x := by
  cases t <;> cases v <;> simp_all [Ty.isNumeric, HasShape, toReal?]

lemma hasShape_default : ∀ {t : Ty}, t.isData → t.default.HasShape t
  | .integer, _ | .real, _ | .boolean, _ | .string, _ => trivial
  | .array .., _ => trivial

/-- Types that agree have the same values. -/
theorem hasShape_congr {s t : Ty} (h : s.sameAs t) {v : Value} : v.HasShape s ↔ v.HasShape t := by
  fun_induction Ty.sameAs s t generalizing v with
  | case5 _ _ _ _ _ _ ih =>
    simp only [hasShape_array, Elements.haveShape_iff, ih h]
  | case6 => simp at h
  | _ => rfl

/-- A value that is widened comes to be of the type that it is widened to. -/
theorem HasShape.widen {s t : Ty} {v : Value} (h : v.HasShape t) (accepts : s.accepts t)
    (widens : s.widens t) : v.widen.HasShape s := by
  fun_induction Ty.accepts s t generalizing v with
  | case1 =>
    obtain ⟨n, rfl⟩ := hasShape_integer.1 h
    trivial
  | case2 low high s low' high' t ih =>
    obtain ⟨elements, rfl, items⟩ := hasShape_array.1 h
    rw [Value.widen, hasShape_array]
    exact ⟨_, rfl, go ih accepts widens items⟩
  | case3 s t => simp_all [Ty.widens]
where
  go {s t : Ty} (item : ∀ {v : Value}, v.HasShape t → s.accepts t → s.widens t → v.widen.HasShape s)
      (accepts : s.accepts t) (widens : s.widens t) :
      ∀ {elements : Elements}, elements.HaveShape t → (widenElements elements).HaveShape s
    | .nil, _ => trivial
    | .cons _ _ _, h => ⟨item h.1 accepts widens, go item accepts widens h.2⟩

lemma HasShape.element {low high : Integer} {item : Ty} {v : Value} {k : Nat}
    (h : v.HasShape (.array low high item)) (data : item.isData) :
    ∃ w, v.element k item = .ok w ∧ w.HasShape item := by
  obtain ⟨elements, rfl, items⟩ := hasShape_array.1 h
  refine ⟨_, rfl, ?_⟩
  rcases found : elements.get? k with _ | w
  · exact hasShape_default data
  · exact items.get? found

end Value

/-! ### Paths -/

/-- From an array of the first type, indices lead through items of the types in the list to an
element of the last type. -/
inductive Ty.Leads : Ty → List Ty → Ty → Prop
  | here {type : Ty} : Leads type [] type
  | into {low high : Integer} {item last : Ty} {items : List Ty} :
    Leads item items last → Leads (.array low high item) (item :: items) last

/-- Writing an element of the right type keeps the type of the array, and is never refused. Whatever
is replaced as a whole may be of any type. -/
theorem Value.HasShape.write {path : List (Nat × Ty)} {type last : Ty} {new target : Value}
    (leads : type.Leads (path.map (·.2)) last) (h : path ≠ [] → target.HasShape type)
    (hnew : new.HasShape last) :
    (Value.write path new target).2 = none ∧ (Value.write path new target).1.HasShape type := by
  induction path generalizing type target with
  | nil =>
    cases leads
    exact ⟨rfl, hnew⟩
  | cons step rest ih =>
    obtain ⟨offset, item⟩ := step
    cases leads with
    | @into low high _ _ _ leads =>
      obtain ⟨elements, rfl, items⟩ := hasShape_array.1 (h (List.cons_ne_nil _ _))
      have element (more : rest ≠ []) :
        ((elements.get? offset).getD item.default).HasShape item := by
        rcases found : elements.get? offset with _ | w
        · -- only an array is gone into, and by default it is empty
          cases rest with
          | nil => exact absurd rfl more
          | cons => cases leads; trivial
        · exact items.get? found
      obtain ⟨accepted, shaped⟩ := ih leads element
      exact ⟨accepted, items.insert shaped⟩

end SmallPascal
