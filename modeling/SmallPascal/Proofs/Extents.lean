import SmallPascal.Proofs.Policies
import SmallPascal.Proofs.TrackingExpressions

/-! How far the stored elements of an array lie from its lower bound. A value may have come from
places of several types, which agree but for their bounds; then each level of its arrays is bounded
by one of the types or another. -/

namespace SmallPascal

/-! ### Values and one type -/

/-- The stored elements of an array lie inside the bounds of the type, and so do those of the arrays
inside it as far as the type says that there are any. -/
def Value.InBounds : Ty → Value → Prop
  | .array low high item, .array elements => ∀ entry ∈ elements.toList,
    (entry.1 : Int) ≤ high.toInt - low.toInt ∧ InBounds item entry.2
  | _, _ => True

/-- No array of the second type is longer than one of the first, at any level. -/
def Ty.Covers : (wider narrower : Ty) → Prop
  | .array low high item, .array low' high' item' =>
    high'.toInt - low'.toInt ≤ high.toInt - low.toInt ∧ item.Covers item'
  | _, _ => True

/-- The type of an array that has something of the type where the path leads to. -/
def Ty.along (path : List IndexStep) (last : Ty) : Ty :=
  path.foldr (fun step item => .array step.low step.high item) last

/-! ### Values and many types -/

def itemsOf (types : Ty → Prop) (item : Ty) : Prop := ∃ low high, types (.array low high item)

mutual

/-- Each level of the arrays in the value is bounded by some of the types. -/
def Value.Bounded : Value → (Ty → Prop) → Prop
  | .array elements, types => elements.Bounded types
  | _, _ => True

/-- The elements lie inside the bounds of some of the types, and are bounded by the types of
items. -/
def Elements.Bounded : Elements → (Ty → Prop) → Prop
  | .nil, _ => True
  | .cons offset value rest, types =>
    (∃ low high item, types (.array low high item) ∧ (offset : Int) ≤ high.toInt - low.toInt) ∧
      value.Bounded (itemsOf types) ∧ rest.Bounded types

end

mutual

lemma Value.Bounded.mono {value : Value} {types types' : Ty → Prop} (h : value.Bounded types)
    (more : ∀ type, types type → types' type) : value.Bounded types' := by
  match value with
  | .array elements =>
    have inner : elements.Bounded types := h
    exact Elements.Bounded.mono inner more
  | .integer _ | .real _ | .boolean _ | .string _ => trivial

lemma Elements.Bounded.mono {elements : Elements} {types types' : Ty → Prop}
    (h : elements.Bounded types) (more : ∀ type, types type → types' type) :
    elements.Bounded types' := by
  match elements with
  | .nil => trivial
  | .cons offset value rest =>
    obtain ⟨⟨low, high, item, among, within⟩, first, others⟩ := h
    refine ⟨⟨low, high, item, more _ among, within⟩, ?_, Elements.Bounded.mono others more⟩
    exact Value.Bounded.mono first fun item ⟨low, high, among⟩ => ⟨low, high, more _ among⟩

end

mutual

lemma Value.Bounded.widen {value : Value} {types : Ty → Prop} (h : value.Bounded types) :
    value.widen.Bounded types := by
  match value with
  | .array elements =>
    have inner : elements.Bounded types := h
    exact Elements.Bounded.widen inner
  | .integer _ | .real _ | .boolean _ | .string _ => trivial

lemma Elements.Bounded.widen {elements : Elements} {types : Ty → Prop}
    (h : elements.Bounded types) :
    (Value.widenElements elements).Bounded types := by
  match elements with
  | .nil => trivial
  | .cons offset value rest => exact ⟨h.1, Value.Bounded.widen h.2.1, Elements.Bounded.widen h.2.2⟩

end

namespace Value

variable {types : Ty → Prop} {value : Value} {elements : Elements}

lemma Single.bounded (h : value.Single) : value.Bounded types := by
  cases value with
  | array => exact absurd rfl h
  | _ => trivial

lemma bounded_default (type : Ty) : type.default.Bounded types := by cases type <;> trivial

/-! ### Elements -/

lemma bounded_of_get? {offset : Nat} (h : elements.Bounded types)
    (found : elements.get? offset = some value) : value.Bounded (itemsOf types) := by
  fun_induction Elements.get? elements offset with
  | case1 => cases found
  | case2 => exact Option.some.inj found ▸ h.2.1
  | case3 _ _ _ _ _ ih => exact ih h.2.2 found

lemma bounded_getD {offset : Nat} (item : Ty) (h : elements.Bounded types) :
    ((elements.get? offset).getD item.default).Bounded (itemsOf types) := by
  rcases found : elements.get? offset with _ | value
  · exact bounded_default item
  · exact bounded_of_get? h found

lemma bounded_element {offset : Nat} {item : Ty} {answer : Value} (h : value.Bounded types)
    (found : value.element offset item = .ok answer) : answer.Bounded (itemsOf types) := by
  cases value with
  | array elements =>
    cases found
    exact bounded_getD item h
  | _ => cases found

lemma bounded_insert {offset : Nat} {low high : Integer} {item : Ty}
    (among : types (.array low high item)) (within : (offset : Int) ≤ high.toInt - low.toInt)
    (hvalue : value.Bounded (itemsOf types))
    (h : elements.Bounded types) : (elements.insert offset value).Bounded types := by
  have new : ∃ low high item, types (.array low high item) ∧
    (offset : Int) ≤ high.toInt - low.toInt :=
    ⟨low, high, item, among, within⟩
  fun_induction Elements.insert elements offset value with
  | case1 => exact ⟨new, hvalue, trivial⟩
  | case2 => exact ⟨new, hvalue, h⟩
  | case3 => exact ⟨new, hvalue, h.2.2⟩
  | case4 _ _ _ _ _ _ _ ih => exact ⟨h.1, h.2.1, ih within hvalue h.2.2 new⟩

/-- **An element is written inside the bounds of its indices**, and brings its own bounds with
it. -/
lemma bounded_write {inner : Ty → Prop} {path : List IndexStep} {found : List (Nat × Ty)}
    {new target : Value} (leads : List.Forall₂ IndexStep.Leads path found)
    (indexed : types (.along path .integer))
    (brought : ∀ type, inner type → types (.along path type))
    (hnew : new.Bounded inner) (h : target.Bounded types) :
    (Value.write found new target).1.Bounded types := by
  induction leads generalizing types target with
  | nil => exact hnew.mono brought
  | @cons step place path found leads _ ih =>
    obtain ⟨offset, item⟩ := place
    cases target with
    | array elements =>
      have element : (Value.write found new ((elements.get? offset).getD item.default)).1.Bounded
          (itemsOf types) :=
        ih ⟨_, _, indexed⟩ (fun type among => ⟨_, _, brought type among⟩) (bounded_getD item h)
      exact bounded_insert indexed leads.offset element h
    | _ => exact h

end Value

/-! ### From many types to one -/

lemma Elements.Bounded.entry {elements : Elements} {types : Ty → Prop} (h : elements.Bounded types)
    {entry : Nat × Value} (among : entry ∈ elements.toList) :
    (∃ low high item, types (.array low high item) ∧ (entry.1 : Int) ≤ high.toInt - low.toInt) ∧
      entry.2.Bounded (itemsOf types) := by
  fun_induction Elements.toList elements with
  | case1 => cases among
  | case2 offset value rest ih =>
    rcases List.mem_cons.1 among with rfl | later
    · exact ⟨h.1, h.2.1⟩
    · exact ih h.2.2 later

/-- **What is bounded by types that are all covered by one lies in its bounds.** -/
theorem Value.Bounded.inBounds {type : Ty} {types : Ty → Prop} {value : Value}
    (covered : ∀ other, types other → type.Covers other) (h : value.Bounded types) :
    value.InBounds type := by
  match type, value with
  | .array low high item, .array elements =>
    have items (other : Ty) (among : itemsOf types other) : item.Covers other := by
      obtain ⟨low', high', among⟩ := among
      exact (covered _ among).2
    intro entry among
    obtain ⟨⟨low', high', item', array, within⟩, inner⟩ := Elements.Bounded.entry h among
    exact ⟨Int.le_trans within (covered _ array).1, Bounded.inBounds items inner⟩
  | .array .., .integer _ | .array .., .real _ | .array .., .boolean _ | .array .., .string _
  | .integer, _ | .real, _ | .boolean, _ | .string, _ | .function .., _ | .procedure .., _ =>
    trivial

end SmallPascal
