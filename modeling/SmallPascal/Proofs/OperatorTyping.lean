import SmallPascal.Proofs.Outcomes
import SmallPascal.Proofs.Shape

/-! The table of operators: which types the operands of each may have, and of what type the result
is. No operator refuses operands of these types; it can only fail by the arithmetic. -/

namespace SmallPascal

/-- The types that an operator between two operands takes and gives. Reals come into play as soon as
one operand is a real. -/
inductive BinaryOp.Takes : BinaryOp → Ty → Ty → Ty → Prop
  | integers {op : BinaryOp} : op ∈ [.add, .sub, .mul, .intDiv, .mod] →
    Takes op .integer .integer .integer
  | reals {op : BinaryOp} {left right : Ty} : op ∈ [.add, .sub, .mul] → left.isNumeric →
    right.isNumeric → left = .real ∨ right = .real → Takes op left right .real
  | quotient {left right : Ty} : left.isNumeric → right.isNumeric → Takes .div left right .real
  | order {op : BinaryOp} : op ∈ [.lt, .le, .gt, .ge] → Takes op .integer .integer .boolean
  | equality {left right : Ty} : left.sameAs right → left.isArray = false →
    Takes .eq left right .boolean
  | logic {op : BinaryOp} : op ∈ [.and, .or] → Takes op .boolean .boolean .boolean

/-- The types that an operator before its operand takes and gives. -/
inductive UnaryOp.Takes : UnaryOp → Ty → Ty → Prop
  | sign {op : UnaryOp} {operand : Ty} : op ∈ [.plus, .negate] → operand.isNumeric →
    Takes op operand operand
  | not : Takes .not .boolean .boolean

def RuntimeFault.IsArithmetic (fault : RuntimeFault) : Prop :=
  fault = .overflow ∨ fault = .divisionByZero

/-! ### The check that a reader makes -/

theorem BinaryOp.takes_of_resultType? {op : BinaryOp} {left right type : Ty}
    (h : op.resultType? left right = some type) : op.Takes left right type := by
  cases op
  case add | sub | mul =>
    simp only [resultType?] at h
    split at h
    next both => cases h; rw [both.1, both.2]; exact .integers (by decide)
    next mixed =>
      split at h
      next numeric =>
        cases h
        refine .reals (by decide) numeric.1 numeric.2 ?_
        rcases Ty.isNumeric_iff.1 numeric.1 with rfl | rfl
        · exact .inr ((Ty.isNumeric_iff.1 numeric.2).resolve_left fun e => mixed ⟨rfl, e⟩)
        · exact .inl rfl
      next => cases h
  case div =>
    simp only [resultType?] at h
    split at h
    next numeric => cases h; exact .quotient numeric.1 numeric.2
    next => cases h
  case intDiv | mod =>
    simp only [resultType?] at h
    split at h
    next both => cases h; rw [both.1, both.2]; exact .integers (by decide)
    next => cases h
  case lt | le | gt | ge =>
    simp only [resultType?] at h
    split at h
    next both => cases h; rw [both.1, both.2]; exact .order (by decide)
    next => cases h
  case eq =>
    simp only [resultType?] at h
    split at h
    next agree => cases h; exact .equality agree.1 (by simpa using agree.2)
    next => cases h
  case and | or =>
    simp only [resultType?] at h
    split at h
    next both => cases h; rw [both.1, both.2]; exact .logic (by decide)
    next => cases h

theorem UnaryOp.takes_of_resultType? {op : UnaryOp} {operand type : Ty}
    (h : op.resultType? operand = some type) : op.Takes operand type := by
  cases op
  case plus | negate =>
    simp only [resultType?] at h
    split at h
    next numeric => cases h; exact .sign (by decide) numeric
    next => cases h
  case not =>
    simp only [resultType?] at h
    split at h
    next e => cases h; rw [e]; exact .not
    next => cases h

lemma BinaryOp.Takes.isData {op : BinaryOp} {left right type : Ty} (h : op.Takes left right type) :
    type.isData := by
  cases h <;> rfl

lemma UnaryOp.Takes.isData {op : UnaryOp} {operand type : Ty} (h : op.Takes operand type) :
    type.isData := by
  cases h with
  | sign _ numeric => rcases Ty.isNumeric_iff.1 numeric with rfl | rfl <;> rfl
  | not => rfl

/-! ### Operations on values of these types -/

open RuntimeFault (IsArithmetic)

lemma Integer.accounts_checked (n? : Option Integer) :
    Accounts IsArithmetic (·.HasShape .integer) (Integer.checked n?) := by
  cases n? with
  | some n => trivial
  | none => exact .inl rfl

namespace BinaryOp

variable {op : BinaryOp} {v w : Value} {left right type : Ty}

lemma arithmetic_integers {exact : Integer → Integer → Option Integer}
    {rounded : Float → Float → Float} (hv : v.HasShape .integer) (hw : w.HasShape .integer) :
    Accounts IsArithmetic (·.HasShape .integer) (op.arithmetic exact rounded v w) := by
  obtain ⟨m, rfl⟩ := Value.hasShape_integer.1 hv
  obtain ⟨n, rfl⟩ := Value.hasShape_integer.1 hw
  exact Integer.accounts_checked _

lemma arithmetic_reals {exact : Integer → Integer → Option Integer}
    {rounded : Float → Float → Float}
    (hv : v.HasShape left) (hw : w.HasShape right) (hleft : left.isNumeric)
    (hright : right.isNumeric) (real : left = .real ∨ right = .real) :
    Accounts IsArithmetic (·.HasShape .real) (op.arithmetic exact rounded v w) := by
  obtain ⟨x, hx⟩ := Value.toReal?_isSome hv hleft
  obtain ⟨y, hy⟩ := Value.toReal?_isSome hw hright
  have : op.arithmetic exact rounded v w = .ok (.real (rounded x y)) := by
    unfold arithmetic
    split
    · rcases real with rfl | rfl
      · cases hv
      · cases hw
    · simp only [hx, hy]
  rw [this]
  trivial

lemma quotient_numbers (hv : v.HasShape left) (hw : w.HasShape right) (hleft : left.isNumeric)
    (hright : right.isNumeric) : Accounts IsArithmetic (·.HasShape .real) (quotient v w) := by
  obtain ⟨x, hx⟩ := Value.toReal?_isSome hv hleft
  obtain ⟨y, hy⟩ := Value.toReal?_isSome hw hright
  simp only [quotient, hx, hy]
  split
  · exact .inr rfl
  · trivial

lemma division_integers {exact : Integer → Integer → Option Integer} (hv : v.HasShape .integer)
    (hw : w.HasShape .integer) :
    Accounts IsArithmetic (·.HasShape .integer) (op.division exact v w) := by
  obtain ⟨m, rfl⟩ := Value.hasShape_integer.1 hv
  obtain ⟨n, rfl⟩ := Value.hasShape_integer.1 hw
  simp only [division]
  split
  · exact .inr rfl
  · exact Integer.accounts_checked _

lemma comparison_integers {admits : Ordering → Bool} (hv : v.HasShape .integer)
    (hw : w.HasShape .integer) :
    Accounts IsArithmetic (·.HasShape .boolean) (op.comparison admits v w) := by
  obtain ⟨m, rfl⟩ := Value.hasShape_integer.1 hv
  obtain ⟨n, rfl⟩ := Value.hasShape_integer.1 hw
  trivial

lemma logic_booleans {combine : Bool → Bool → Bool} (hv : v.HasShape .boolean)
    (hw : w.HasShape .boolean) :
    Accounts IsArithmetic (·.HasShape .boolean) (op.logic combine v w) := by
  obtain ⟨a, rfl⟩ := Value.hasShape_boolean.1 hv
  obtain ⟨b, rfl⟩ := Value.hasShape_boolean.1 hw
  trivial

/-- An operation on values of the types in the table gives a value of the type there, or fails by
the arithmetic. -/
theorem Takes.apply (h : op.Takes left right type) (hv : v.HasShape left) (hw : w.HasShape right) :
    Accounts IsArithmetic (·.HasShape type) (op.apply v w) := by
  cases h with
  | integers among =>
    simp only [List.mem_cons, List.not_mem_nil, or_false] at among
    rcases among with rfl | rfl | rfl | rfl | rfl
    · exact arithmetic_integers hv hw
    · exact arithmetic_integers hv hw
    · exact arithmetic_integers hv hw
    · exact division_integers hv hw
    · exact division_integers hv hw
  | reals among hleft hright real =>
    simp only [List.mem_cons, List.not_mem_nil, or_false] at among
    rcases among with rfl | rfl | rfl <;> exact arithmetic_reals hv hw hleft hright real
  | quotient hleft hright => exact quotient_numbers hv hw hleft hright
  | order among =>
    simp only [List.mem_cons, List.not_mem_nil, or_false] at among
    rcases among with rfl | rfl | rfl | rfl <;> exact comparison_integers hv hw
  | equality => trivial
  | logic among =>
    simp only [List.mem_cons, List.not_mem_nil, or_false] at among
    rcases among with rfl | rfl <;> exact logic_booleans hv hw

end BinaryOp

theorem UnaryOp.Takes.apply {op : UnaryOp} {operand type : Ty} {v : Value}
    (h : op.Takes operand type) (hv : v.HasShape operand) :
    Accounts IsArithmetic (·.HasShape type) (op.apply v) := by
  cases h with
  | sign among numeric =>
    simp only [List.mem_cons, List.not_mem_nil, or_false] at among
    rcases Ty.isNumeric_iff.1 numeric with rfl | rfl
    · obtain ⟨n, rfl⟩ := Value.hasShape_integer.1 hv
      rcases among with rfl | rfl
      · trivial
      · exact Integer.accounts_checked _
    · obtain ⟨x, rfl⟩ := Value.hasShape_real.1 hv
      rcases among with rfl | rfl <;> trivial
  | not =>
    obtain ⟨b, rfl⟩ := Value.hasShape_boolean.1 hv
    trivial

end SmallPascal
