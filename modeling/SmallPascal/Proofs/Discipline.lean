import SmallPascal.Proofs.Typing

/-! Well-typed trees in a store that suits them. What suits is left open: a discipline says which
values may stand where a type is called for, and which faults are put up with. Two are of use. Under
the strict one values are of their types, and only arithmetic and bounds fail; under the lax one any
value will do, and still nothing is missing that a name or a number stands for. -/

namespace SmallPascal

/-- Which values may stand where a type is called for, and which faults are put up with. -/
structure Discipline where
  holds : Ty → Value → Prop
  allows : RuntimeFault → Prop

structure Discipline.Sound (d : Discipline) : Prop where
  shape : ∀ {type value}, value.HasShape type → d.holds type value
  agree : ∀ {source target value}, target.sameAs source → d.holds source value →
    d.holds target value
  widen : ∀ {source target value}, target.accepts source → target.widens source →
    d.holds source value → d.holds target value.widen
  binary : ∀ {op left right type v w}, BinaryOp.Takes op left right type → d.holds left v →
    d.holds right w → Accounts d.allows (d.holds type) (op.apply v w)
  unary : ∀ {op operand type v}, UnaryOp.Takes op operand type → d.holds operand v →
    Accounts d.allows (d.holds type) (op.apply v)
  integer : ∀ {v}, d.holds .integer v → Accounts d.allows (fun _ => True) v.expectInteger
  boolean : ∀ {v}, d.holds .boolean v → (∃ b, v = .boolean b) ∨ d.allows (.notACondition v.tag)
  bounds : ∀ index low high, d.allows (.outOfBounds index low high)
  element : ∀ {low high item v k}, d.holds (.array low high item) v → item.isData →
    Accounts d.allows (d.holds item) (v.element k item)
  write : ∀ {path type last new target}, type.Leads (path.map Prod.snd) last → type.isData →
    d.holds type target → d.holds last new → d.holds type (Value.write path new target).1 ∧
      ∀ tag, (Value.write path new target).2 = some tag → d.allows (.notAnArray tag)

/-- The faults that report something missing. -/
def RuntimeFault.IsMissing : RuntimeFault → Prop
  | .undefined _ | .unknownRoutine _ | .noResult _ => True
  | _ => False

namespace Discipline

/-- Values are of their types; only arithmetic and the bounds of arrays fail. -/
def strict : Discipline where
  holds type value := value.HasShape type
  allows fault := fault.IsArithmetic ∨ ∃ index low high, fault = .outOfBounds index low high

/-- Any value stands anywhere; only what is missing is not put up with. -/
def lax : Discipline where
  holds _ _ := True
  allows fault := ¬ fault.IsMissing

/-- Values are of their types; any fault will do. -/
def shaped : Discipline where
  holds type value := value.HasShape type
  allows _ := True

theorem strict_sound : strict.Sound where
  shape h := h
  agree same h := (Value.hasShape_congr same).2 h
  widen accepts widens h := h.widen accepts widens
  binary takes hv hw := (takes.apply hv hw).imp (fun _ => .inl) fun _ => id
  unary takes hv := (takes.apply hv).imp (fun _ => .inl) fun _ => id
  integer h := by
    obtain ⟨n, rfl⟩ := Value.hasShape_integer.1 h
    trivial
  boolean h := .inl (Value.hasShape_boolean.1 h)
  bounds index low high := .inr ⟨index, low, high, rfl⟩
  element h data := by
    obtain ⟨w, e, shaped⟩ := h.element data
    rw [e]
    exact shaped
  write leads _ target new := by
    obtain ⟨accepted, shaped⟩ := Value.HasShape.write leads (fun _ => target) new
    refine ⟨shaped, fun tag refused => ?_⟩
    rw [accepted] at refused
    cases refused

lemma Sound.weaken {d : Discipline} (sound : d.Sound) {allowed : RuntimeFault → Prop}
    (weaker : ∀ fault, d.allows fault → allowed fault) : Sound ⟨d.holds, allowed⟩ where
  shape := sound.shape
  agree := sound.agree
  widen := sound.widen
  binary takes hv hw := (sound.binary takes hv hw).imp weaker fun _ => id
  unary takes hv := (sound.unary takes hv).imp weaker fun _ => id
  integer h := (sound.integer h).imp weaker fun _ => id
  boolean h := (sound.boolean h).imp_right (weaker _)
  bounds index low high := weaker _ (sound.bounds index low high)
  element h data := (sound.element h data).imp weaker fun _ => id
  write leads data target new :=
    (sound.write leads data target new).imp_right fun refused tag e => weaker _ (refused tag e)

theorem shaped_sound : shaped.Sound := strict_sound.weaken fun _ _ => trivial

end Discipline

/-! ### Nothing is missing in an operation -/

lemma Integer.checked_lax (n? : Option Integer) :
    Accounts (¬ ·.IsMissing) (fun _ => True) (Integer.checked n?) := by
  cases n? with
  | some => trivial
  | none => exact id

namespace BinaryOp

variable (op : BinaryOp) (v w : Value)

lemma arithmetic_lax (exact : Integer → Integer → Option Integer)
    (rounded : Float → Float → Float) :
    Accounts (¬ ·.IsMissing) (fun _ => True) (op.arithmetic exact rounded v w) := by
  unfold arithmetic
  split
  · exact Integer.checked_lax _
  · split
    · trivial
    · exact id

lemma quotient_lax : Accounts (¬ ·.IsMissing) (fun _ => True) (quotient v w) := by
  unfold quotient
  split
  · split
    · exact id
    · trivial
  · exact id

lemma division_lax (exact : Integer → Integer → Option Integer) :
    Accounts (¬ ·.IsMissing) (fun _ => True) (op.division exact v w) := by
  unfold division
  split
  · split
    · exact id
    · exact Integer.checked_lax _
  · exact id

lemma comparison_lax (admits : Ordering → Bool) :
    Accounts (¬ ·.IsMissing) (fun _ => True) (op.comparison admits v w) := by
  unfold comparison
  split
  · trivial
  · split
    · trivial
    · exact id

lemma logic_lax (combine : Bool → Bool → Bool) :
    Accounts (¬ ·.IsMissing) (fun _ => True) (op.logic combine v w) := by
  unfold logic
  split
  · trivial
  · exact id

/-- Whatever the operands, an operator may refuse them or fail by the arithmetic, and no more. -/
lemma apply_lax : Accounts (¬ ·.IsMissing) (fun _ => True) (op.apply v w) := by
  cases op
  case add | sub | mul => exact arithmetic_lax _ v w _ _
  case div => exact quotient_lax v w
  case intDiv | mod => exact division_lax _ v w _
  case lt | le | gt | ge => exact comparison_lax _ v w _
  case and | or => exact logic_lax _ v w _
  case eq => trivial

end BinaryOp

lemma UnaryOp.apply_lax (op : UnaryOp) (v : Value) :
    Accounts (¬ ·.IsMissing) (fun _ => True) (op.apply v) := by
  unfold apply
  split
  · trivial
  · trivial
  · exact Integer.checked_lax _
  · trivial
  · trivial
  · exact id

theorem Discipline.lax_sound : lax.Sound where
  shape _ := trivial
  agree _ _ := trivial
  widen _ _ _ := trivial
  binary _ _ _ := BinaryOp.apply_lax _ _ _
  unary _ _ := UnaryOp.apply_lax _ _
  integer {v} _ := by cases v <;> first | trivial | exact id
  boolean _ := .inr id
  bounds _ _ _ := id
  element {_ _ _ v _} _ _ := by cases v <;> first | trivial | exact id
  write _ _ _ _ := ⟨trivial, fun _ _ => id⟩

/-! ### Expressions -/

/-- An index that keeps its bounds can always be addressed: these are never `2^64` apart. -/
lemma elementOffset_eq (index low high : Integer) : elementOffset index low high =
    if index.toInt < low.toInt ∨ high.toInt < index.toInt then .error (.outOfBounds index low high)
    else .ok (index.toInt - low.toInt).toNat := by
  unfold elementOffset
  split
  · rfl
  · have := Integer.least_le_toInt low
    have := Integer.toInt_le_greatest index
    unfold Integer.least at *
    unfold Integer.greatest at *
    exact if_pos (by omega)

lemma accounts_elementOffset {allowed : RuntimeFault → Prop} (index low high : Integer)
    (bounds : allowed (.outOfBounds index low high)) :
    Accounts allowed (fun _ => True) (elementOffset index low high) := by
  rw [elementOffset_eq]
  split
  · exact bounds
  · trivial

namespace Discipline

variable {d : Discipline} {sight : Sight} {context : Context} {store : Store}

lemma Sound.offset (sound : d.Sound) {index : Value} (h : d.holds .integer index)
    (low high : Integer) : Accounts d.allows (fun _ => True) (index.offset low high) := by
  have integer := sound.integer h
  unfold Value.offset
  rcases e : index.expectInteger with fault | n <;> rw [e] at integer
  · exact integer
  · exact accounts_elementOffset n low high (sound.bounds n low high)

/-- A routine's answer: that of a function is a value that may stand for its result. -/
def Answers (d : Discipline) : Option Ty → Option Value → Prop
  | some type, some value => d.holds type value
  | some _, none => False
  | none, _ => True

/-- Values of the arguments, one for each parameter. -/
def Fills (d : Discipline) (values : List Value) (params : Params) : Prop :=
  List.Forall₂ (fun value param => d.holds param.2 value) values params

/-- Whatever can be seen is there: storage has suitable values, and calls are answered. -/
structure Serves (d : Discipline) (sight : Sight) (context : Context) (store : Store) : Prop where
  place : ∀ name type, sight.place name type →
    match store.get? name with
    | some value => d.holds type value
    | none => d.allows (.undefined name)
  callee : ∀ id signature, sight.callee id signature →
    match context.routines[id]? with
    | some routine => ∀ values, d.Fills values signature.params →
      Eval.Safe d.allows (d.Answers signature.returns) (context.run routine values store)
    | none => d.allows (.unknownRoutine id)

lemma Sound.fills (sound : d.Sound) {args : List Expr} {params : Params} {values : List Value}
    (agree : Agree args params)
    (h : List.Forall₂ (fun arg value => d.holds arg.type value) args values) :
    d.Fills values params := by
  induction agree generalizing values with
  | nil => cases h; exact .nil
  | cons same _ ih =>
    cases h with
    | cons first others => exact .cons (sound.agree same first) (ih others)

/-- **Expressions keep a discipline**: the value of a well-typed expression may stand for its
type. -/
theorem Sound.eval (sound : d.Sound) (data : sight.Data) (serves : d.Serves sight context store)
    {e : Expr} (h : e.WellTyped sight) :
    Eval.Safe d.allows (d.holds e.type) (e.eval context store) := by
  induction h with
  | literal shaped => exact .pure (sound.shape shaped)
  | @var name type span seen =>
    have found := serves.place name type seen
    unfold Expr.eval
    rcases e : store.get? name with _ | value <;> rw [e] at found
    · exact .fail found
    · exact .pure found
  | widen _ accepts widens ih => exact ih.bind fun v hv => .pure (sound.widen accepts widens hv)
  | binary _ _ takes ihl ihr =>
    exact ihl.bind fun v hv => ihr.bind fun w hw => .ofExcept (sound.binary takes hv hw)
  | unary _ takes ih => exact ih.bind fun v hv => .ofExcept (sound.unary takes hv)
  | index harray _ array integer iha ihi =>
    have items := harray.isData data
    rw [array] at iha items
    rw [integer] at ihi
    refine iha.bind fun elements helements => ihi.bind fun n hn => ?_
    have offset := sound.offset hn
    have element {k : Nat} := sound.element (k := k) helements items
    exact (Upholds.ofExcept (offset _ _)).bind fun _ _ => .ofExcept element
  | @call id name params args type span seen _ agree ih =>
    have answers := serves.callee id _ seen
    unfold Expr.eval
    rcases e : context.routines[id]? with _ | routine <;> rw [e] at answers
    · exact .fail answers
    · refine (Upholds.evalAll ih).bind fun values hvalues => ?_
      have fills := sound.fills agree hvalues
      refine (answers values fills).bind fun answer hanswer => ?_
      cases answer with
      | none => exact hanswer.elim
      | some value => exact .pure hanswer

/-- A constant has a value of its type, if it has one. -/
theorem hasShape_constant? (data : sight.Data) {e : Expr} (h : e.WellTyped sight) {value : Value}
    (found : e.constant? = .ok value) : value.HasShape e.type := by
  have serves : shaped.Serves sight .empty .empty :=
    ⟨fun _ _ _ => trivial, fun _ _ _ => trivial⟩
  have := (shaped_sound.eval data serves h #[] trivial).2
  unfold Expr.constant? at found
  rwa [found] at this

end Discipline

end SmallPascal
