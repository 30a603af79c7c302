import Mathlib.Data.List.Forall2
import SmallPascal.Proofs.OperatorTyping
import SmallPascal.Syntax

/-! When a tree is well typed, said on the trees alone and without the reader that builds them. A
tree is judged by what can be seen from the part of the program that it stands in. -/

namespace SmallPascal

structure Signature where
  name : String
  params : Params
  returns : Option Ty

def Routine.signature (routine : Routine) : Signature :=
  ⟨routine.name, routine.params, routine.returns⟩

/-- What can be seen from a part of a program: the names of storage with their types, the routines
that can be called, and the type of the result that is set there. -/
structure Sight where
  place : String → Ty → Prop
  callee : RoutineId → Signature → Prop
  result : Option Ty

namespace Sight

structure Below (sight wider : Sight) : Prop where
  place : ∀ name type, sight.place name type → wider.place name type
  callee : ∀ id signature, sight.callee id signature → wider.callee id signature
  result : ∀ type, sight.result = some type → wider.result = some type

structure Data (sight : Sight) : Prop where
  place : ∀ name type, sight.place name type → type.isData
  returns : ∀ id signature type, sight.callee id signature → signature.returns = some type →
    type.isData

end Sight

/-! ### Expressions -/

/-- One argument for each parameter, of a type that agrees. -/
def Agree (args : List Expr) (params : Params) : Prop :=
  List.Forall₂ (fun arg param => param.2.sameAs arg.type) args params

/-- An expression whose parts are all of the types that they are used at. -/
inductive Expr.WellTyped (sight : Sight) : Expr → Prop
  | literal {value type span} : value.HasShape type → type.isData →
    WellTyped sight (.literal value type span)
  | var {name type span} : sight.place name type → WellTyped sight (.var name type span)
  | widen {operand type span} : WellTyped sight operand → type.accepts operand.type →
    type.widens operand.type → WellTyped sight (.widen operand type span)
  | binary {op left right type span} : WellTyped sight left → WellTyped sight right →
    op.Takes left.type right.type type → WellTyped sight (.binary op left right type span)
  | unary {op operand type span} : WellTyped sight operand → op.Takes operand.type type →
    WellTyped sight (.unary op operand type span)
  | index {array index low high item span} : WellTyped sight array → WellTyped sight index →
    array.type = .array low high item → index.type = .integer →
    WellTyped sight (.index array index low high item span)
  | call {id name params args type span} : sight.callee id ⟨name, params, some type⟩ →
    (∀ arg ∈ args, WellTyped sight arg) → Agree args params →
    WellTyped sight (.call id name args type span)

lemma Expr.WellTyped.isData {sight : Sight} (data : sight.Data) {e : Expr} (h : e.WellTyped sight) :
    e.type.isData := by
  induction h with
  | literal _ data => exact data
  | var seen => exact data.place _ _ seen
  | widen _ accepts => exact Ty.isData_of_accepts accepts
  | binary _ _ takes => exact takes.isData
  | unary _ takes => exact takes.isData
  | index _ _ array _ ih => rw [array] at ih; exact ih
  | call seen => exact data.returns _ _ _ seen rfl

lemma Expr.WellTyped.mono {sight wider : Sight} (below : sight.Below wider) {e : Expr}
    (h : e.WellTyped sight) : e.WellTyped wider := by
  induction h with
  | literal shaped data => exact .literal shaped data
  | var seen => exact .var (below.place _ _ seen)
  | widen _ accepts widens ih => exact .widen ih accepts widens
  | binary _ _ takes ihl ihr => exact .binary ihl ihr takes
  | unary _ takes ih => exact .unary ih takes
  | index _ _ array index iha ihi => exact .index iha ihi array index
  | call seen _ agree ih => exact .call (below.callee _ _ seen) ih agree

/-! ### Statements -/

/-- Indices that lead from an array of the first type to an element of the last. -/
inductive PathTyped (sight : Sight) : Ty → List IndexStep → Ty → Prop
  | here {type} : PathTyped sight type [] type
  | into {index low high item path last} : index.WellTyped sight → index.type = .integer →
    PathTyped sight item path last →
    PathTyped sight (.array low high item) (⟨index, low, high, item⟩ :: path) last

/-- A statement whose expressions are all of the types that are called for. -/
inductive Stmt.WellTyped (sight : Sight) : Stmt → Prop
  | block {statements span} : (∀ s ∈ statements, WellTyped sight s) →
    WellTyped sight (.block statements span)
  | ifThen {condition yes span} : condition.WellTyped sight → condition.type = .boolean →
    WellTyped sight yes → WellTyped sight (.ifThen condition yes span)
  | ifThenElse {condition yes no span} : condition.WellTyped sight → condition.type = .boolean →
    WellTyped sight yes → WellTyped sight no → WellTyped sight (.ifThenElse condition yes no span)
  | whileDo {condition body span} : condition.WellTyped sight → condition.type = .boolean →
    WellTyped sight body → WellTyped sight (.whileDo condition body span)
  | forTo {name value start limit body span} : sight.place name .integer →
    WellTyped sight (.assign name value start) → limit.WellTyped sight → limit.type = .integer →
    WellTyped sight body → WellTyped sight (.forTo name (.assign name value start) limit body span)
  | writeln {args span} : (∀ arg ∈ args, arg.WellTyped sight) → WellTyped sight (.writeln args span)
  | assign {name type value span} : sight.place name type → value.WellTyped sight →
    type.sameAs value.type → WellTyped sight (.assign name value span)
  | result {type value span} : sight.result = some type → value.WellTyped sight →
    type.sameAs value.type → WellTyped sight (.assign resultSlot value span)
  | assignElement {name type path item value span} : sight.place name type → path ≠ [] →
    PathTyped sight type path item → value.WellTyped sight → item.sameAs value.type →
    WellTyped sight (.assignElement name path value span)
  | call {id name params args span} : sight.callee id ⟨name, params, none⟩ →
    (∀ arg ∈ args, arg.WellTyped sight) → Agree args params →
    WellTyped sight (.call id name args span)
  | skip {span} : WellTyped sight (.skip span)

lemma PathTyped.mono {sight wider : Sight} (below : sight.Below wider) {type last : Ty}
    {path : List IndexStep} (h : PathTyped sight type path last) :
    PathTyped wider type path last := by
  induction h with
  | here => exact .here
  | into index integer _ ih => exact .into (index.mono below) integer ih

lemma PathTyped.leads {sight : Sight} {type last : Ty} {path : List IndexStep}
    (h : PathTyped sight type path last) : type.Leads (path.map (·.item)) last := by
  induction h with
  | here => exact .here
  | into _ _ _ ih => exact .into ih

lemma PathTyped.index_wellTyped {sight : Sight} {type last : Ty} {path : List IndexStep}
    (h : PathTyped sight type path last) : ∀ step ∈ path, step.index.WellTyped sight := by
  induction h with
  | here => simp
  | into index _ _ ih => exact List.forall_mem_cons.2 ⟨index, ih⟩

lemma Stmt.WellTyped.mono {sight wider : Sight} (below : sight.Below wider) {s : Stmt}
    (h : s.WellTyped sight) : s.WellTyped wider := by
  induction h with
  | block _ ih => exact .block ih
  | ifThen condition boolean _ ih => exact .ifThen (condition.mono below) boolean ih
  | ifThenElse condition boolean _ _ yes no =>
    exact .ifThenElse (condition.mono below) boolean yes no
  | whileDo condition boolean _ ih => exact .whileDo (condition.mono below) boolean ih
  | forTo seen _ limit integer _ start body =>
    exact .forTo (below.place _ _ seen) start (limit.mono below) integer body
  | writeln args => exact .writeln fun arg among => (args arg among).mono below
  | assign seen value agree => exact .assign (below.place _ _ seen) (value.mono below) agree
  | result set value agree => exact .result (below.result _ set) (value.mono below) agree
  | assignElement seen nonempty path value agree =>
    exact .assignElement (below.place _ _ seen) nonempty (path.mono below) (value.mono below) agree
  | call seen args agree =>
    exact .call (below.callee _ _ seen) (fun arg among => (args arg among).mono below) agree
  | skip => exact .skip

/-! ### Programs -/

/-- The first part is the second one or lies inside it, where `parents` tells in which routine, or
in the program itself, each routine is declared. -/
inductive Within (parents : List (Option RoutineId)) : Option RoutineId → Option RoutineId → Prop
  | here {part} : Within parents part part
  | outward {id outer part} : parents[id]? = some outer → Within parents outer part →
    Within parents (some id) part

lemma Within.trans {parents : List (Option RoutineId)} {a b c : Option RoutineId}
    (h : Within parents a b) (h' : Within parents b c) : Within parents a c := by
  induction h with
  | here => exact h'
  | outward parent _ ih => exact .outward parent (ih h')

/-- What the parts of a program declare: the program itself, and its routines by their numbers. -/
structure Outline where
  parents : List (Option RoutineId)
  signatures : List Signature
  storage : Option RoutineId → List (String × Ty)

/-- What can be seen from a part: the storage of all parts around it, and the routines declared in
one of these. -/
def Outline.sight (outline : Outline) (part : Option RoutineId) : Sight where
  place name type := ∃ owner, Within outline.parents part owner ∧
    (name, type) ∈ outline.storage owner
  callee id signature := ∃ owner, Within outline.parents part owner ∧
    outline.parents[id]? = some owner ∧ outline.signatures[id]? = some signature
  result := part.bind fun id => outline.signatures[id]?.bind (·.returns)

namespace Program

/-- The storage that a part of a program declares. -/
def storage (program : Program) : Option RoutineId → List (String × Ty)
  | none => program.vars
  | some id => (program.routines[id]?.map fun routine => routine.params ++ routine.locals).getD []

lemma storage_some {program : Program} {id : RoutineId} {routine : Routine}
    (found : program.routines[id]? = some routine) :
    program.storage (some id) = routine.params ++ routine.locals := by
  simp [storage, found]

/-- What the parts of a program declare, if the routines are declared where `parents` says. -/
def outline (program : Program) (parents : List (Option RoutineId)) : Outline where
  parents
  signatures := program.routines.map Routine.signature
  storage := program.storage

lemma exists_of_signature {program : Program} {parents : List (Option RoutineId)} {id : RoutineId}
    {signature : Signature} (signed : (program.outline parents).signatures[id]? = some signature) :
    ∃ routine, program.routines[id]? = some routine ∧ routine.signature = signature := by
  change (program.routines.map Routine.signature)[id]? = some signature at signed
  rw [List.getElem?_map] at signed
  exact Option.map_eq_some_iff.1 signed

/-- A program is well typed if each of its parts is, by what can be seen from there. -/
structure WellTyped (program : Program) (parents : List (Option RoutineId)) : Prop where
  length : parents.length = program.routines.length
  earlier : ∀ id outer : RoutineId, parents[id]? = some (some outer) → outer < id
  storage : ∀ part name type, (name, type) ∈ program.storage part → name ≠ resultSlot ∧ type.isData
  returns : ∀ routine ∈ program.routines, ∀ type, routine.returns = some type → type.isData
  body : program.body.WellTyped ((program.outline parents).sight none)
  routines : ∀ (id : RoutineId) (routine : Routine), program.routines[id]? = some routine →
    routine.body.WellTyped ((program.outline parents).sight (some id))

end Program

end SmallPascal
