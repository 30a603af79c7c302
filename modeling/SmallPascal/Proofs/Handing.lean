import SmallPascal.Proofs.Typing

/-! Which declarations of a name may reach a part of the program. An activation starts in a copy of
its caller's store, so that a part finds there what itself declares, and otherwise whatever the part
that called it has found. -/

namespace SmallPascal

/-! ### What a tree mentions -/

section

variable {α : Type} (f : Expr → List α)

mutual

/-- What is found at an expression and at all expressions inside it. -/
def Expr.gather : Expr → List α
  | e@(.literal ..) | e@(.var ..) => f e
  | e@(.widen operand _ _) | e@(.unary _ operand _ _) => f e ++ operand.gather
  | e@(.binary _ left right _ _) => f e ++ left.gather ++ right.gather
  | e@(.index array subscript _ _ _ _) => f e ++ array.gather ++ subscript.gather
  | e@(.call _ _ args _ _) => f e ++ gatherAll args

def Expr.gatherAll : List Expr → List α
  | [] => []
  | e :: rest => e.gather ++ gatherAll rest

end

variable (g : Stmt → List α)

mutual

/-- What is found at a statement, at all statements inside it, and at their expressions. -/
def Stmt.gather : Stmt → List α
  | s@(.block statements _) => g s ++ gatherAll statements
  | s@(.ifThen condition yes _) => g s ++ condition.gather f ++ yes.gather
  | s@(.ifThenElse condition yes no _) => g s ++ condition.gather f ++ yes.gather ++ no.gather
  | s@(.whileDo condition body _) => g s ++ condition.gather f ++ body.gather
  | s@(.forTo _ start limit body _) => g s ++ start.gather ++ limit.gather f ++ body.gather
  | s@(.writeln args _) | s@(.call _ _ args _) => g s ++ Expr.gatherAll f args
  | s@(.assign _ value _) => g s ++ value.gather f
  | s@(.assignElement _ path value _) =>
    g s ++ Expr.gatherAll f (path.map (·.index)) ++ value.gather f
  | s@(.skip _) => g s

def Stmt.gatherAll : List Stmt → List α
  | [] => []
  | s :: rest => s.gather ++ gatherAll rest

end

end

/-- The name that an expression itself reads, with its type. -/
def Expr.use : Expr → List (String × Ty)
  | .var name type _ => [(name, type)]
  | _ => []

/-- The routine that an expression itself calls. -/
def Expr.callee : Expr → List RoutineId
  | .call id .. => [id]
  | _ => []

/-- The name that a statement itself sets, with the type that is called for. -/
def Stmt.use : Stmt → List (String × Ty)
  | .forTo name .. => [(name, .integer)]
  | .assign name value _ => [(name, value.type)]
  | .assignElement name (step :: _) _ _ => [(name, .array step.low step.high step.item)]
  | _ => []

/-- The routine that a statement itself calls. -/
def Stmt.callee : Stmt → List RoutineId
  | .call id .. => [id]
  | _ => []

/-- The names that an expression reads, with the types that they are used at. -/
def Expr.uses (e : Expr) : List (String × Ty) := e.gather use

def Expr.calls (e : Expr) : List RoutineId := e.gather callee

/-- The names that a statement reads or sets, with the types that they are used at. -/
def Stmt.uses (s : Stmt) : List (String × Ty) := s.gather Expr.use use

def Stmt.calls (s : Stmt) : List RoutineId := s.gather Expr.callee callee

lemma Expr.gatherAll_subset {α : Type} {f : Expr → List α} {found : List α} {es : List Expr} :
    gatherAll f es ⊆ found ↔ ∀ e ∈ es, e.gather f ⊆ found := by
  induction es with
  | nil => simp [gatherAll]
  | cons e rest ih => rw [gatherAll, List.append_subset, ih, List.forall_mem_cons]

lemma Stmt.gatherAll_subset {α : Type} {f : Expr → List α} {g : Stmt → List α} {found : List α}
    {statements : List Stmt} :
    gatherAll f g statements ⊆ found ↔ ∀ s ∈ statements, s.gather f g ⊆ found := by
  induction statements with
  | nil => simp [gatherAll]
  | cons s rest ih => rw [gatherAll, List.append_subset, ih, List.forall_mem_cons]

/-! ### Seeing no more than is mentioned -/

/-- Of all that is seen, the names that are used and the routines that are called. -/
def Sight.only (sight : Sight) (uses : List (String × Ty)) (calls : List RoutineId) : Sight where
  place name type := sight.place name type ∧ ∃ used, (name, used) ∈ uses ∧ type.sameAs used
  callee id signature := sight.callee id signature ∧ id ∈ calls
  result := sight.result

lemma Sight.Data.only {sight : Sight} (data : sight.Data) (uses : List (String × Ty))
    (calls : List RoutineId) : (sight.only uses calls).Data where
  place name type seen := data.place name type seen.1
  returns id signature type seen := data.returns id signature type seen.1

section

variable {sight : Sight} {uses : List (String × Ty)} {calls : List RoutineId}

lemma Expr.WellTyped.only (data : sight.Data) {e : Expr} (h : e.WellTyped sight)
    (used : e.gather use ⊆ uses) (called : e.gather callee ⊆ calls) :
    e.WellTyped (sight.only uses calls) := by
  induction h with
  | literal shaped data => exact .literal shaped data
  | @var name type span seen =>
    refine .var ⟨seen, type, used ?_, (Ty.sameAs_self type).trans (data.place _ _ seen)⟩
    exact List.mem_singleton_self _
  | widen _ accepts widens ih =>
    rw [gather, List.append_subset] at used called
    exact .widen (ih used.2 called.2) accepts widens
  | binary _ _ takes ihl ihr =>
    rw [gather, List.append_subset, List.append_subset] at used called
    exact .binary (ihl used.1.2 called.1.2) (ihr used.2 called.2) takes
  | unary _ takes ih =>
    rw [gather, List.append_subset] at used called
    exact .unary (ih used.2 called.2) takes
  | index _ _ array index iha ihi =>
    rw [gather, List.append_subset, List.append_subset] at used called
    exact .index (iha used.1.2 called.1.2) (ihi used.2 called.2) array index
  | call seen _ agree ih =>
    rw [gather, List.append_subset, gatherAll_subset] at used called
    refine .call ⟨seen, called.1 (List.mem_singleton_self _)⟩ (fun arg among => ?_) agree
    exact ih arg among (used.2 arg among) (called.2 arg among)

lemma PathTyped.only (data : sight.Data) {type last : Ty} {path : List IndexStep}
    (h : PathTyped sight type path last)
    (used : Expr.gatherAll Expr.use (path.map (·.index)) ⊆ uses)
    (called : Expr.gatherAll Expr.callee (path.map (·.index)) ⊆ calls) :
    PathTyped (sight.only uses calls) type path last := by
  induction h with
  | here => exact .here
  | into index integer _ ih =>
    rw [List.map_cons, Expr.gatherAll, List.append_subset] at used called
    exact .into (index.only data used.1 called.1) integer (ih used.2 called.2)

/-- **A well-typed statement needs to see no more than what it mentions.** -/
theorem Stmt.WellTyped.only (data : sight.Data) {s : Stmt} (h : s.WellTyped sight)
    (used : s.uses ⊆ uses) (called : s.calls ⊆ calls) : s.WellTyped (sight.only uses calls) := by
  unfold Stmt.uses at used
  unfold Stmt.calls at called
  have ofAll {args : List Expr} (typed : ∀ arg ∈ args, arg.WellTyped sight)
      (used : Expr.gatherAll Expr.use args ⊆ uses)
      (called : Expr.gatherAll Expr.callee args ⊆ calls) :
      ∀ arg ∈ args, arg.WellTyped (sight.only uses calls) := fun arg among =>
    (typed arg among).only data (Expr.gatherAll_subset.1 used arg among)
      (Expr.gatherAll_subset.1 called arg among)
  induction h with
  | block _ ih =>
    rw [gather, List.append_subset, gatherAll_subset] at used called
    exact .block fun s among => ih s among (used.2 s among) (called.2 s among)
  | ifThen condition boolean _ ih =>
    simp only [gather, List.append_subset] at used called
    exact .ifThen (condition.only data used.1.2 called.1.2) boolean (ih used.2 called.2)
  | ifThenElse condition boolean _ _ yes no =>
    simp only [gather, List.append_subset] at used called
    exact .ifThenElse (condition.only data used.1.1.2 called.1.1.2) boolean
      (yes used.1.2 called.1.2) (no used.2 called.2)
  | whileDo condition boolean _ ih =>
    simp only [gather, List.append_subset] at used called
    exact .whileDo (condition.only data used.1.2 called.1.2) boolean (ih used.2 called.2)
  | forTo seen _ limit integer _ start body =>
    rw [gather, List.append_subset, List.append_subset, List.append_subset] at used called
    refine .forTo ⟨seen, .integer, used.1.1.1 (List.mem_singleton_self _), rfl⟩
      (start used.1.1.2 called.1.1.2) (limit.only data used.1.2 called.1.2) integer
      (body used.2 called.2)
  | writeln args =>
    rw [gather, List.append_subset] at used called
    exact .writeln (ofAll args used.2 called.2)
  | assign seen value agree =>
    rw [gather, List.append_subset] at used called
    exact .assign ⟨seen, _, used.1 (List.mem_singleton_self _), agree⟩
      (value.only data used.2 called.2) agree
  | result set value agree =>
    rw [gather, List.append_subset] at used called
    exact .result set (value.only data used.2 called.2) agree
  | @assignElement name type path item value span seen nonempty typed value agree =>
    rw [gather, List.append_subset, List.append_subset] at used called
    refine .assignElement ⟨seen, type, used.1.1 ?_, ?_⟩ nonempty
      (typed.only data used.1.2 called.1.2) (value.only data used.2 called.2) agree
    · cases typed with
      | here => exact absurd rfl nonempty
      | into => exact List.mem_singleton_self _
    · exact (Ty.sameAs_self type).trans (data.place _ _ seen)
  | call seen args agree =>
    rw [gather, List.append_subset] at used called
    exact .call ⟨seen, called.1 (List.mem_singleton_self _)⟩ (ofAll args used.2 called.2) agree
  | skip => exact .skip

end

/-! ### Declarations that reach a part -/

namespace Program

def bodyOf? (program : Program) : Option RoutineId → Option Stmt
  | none => some program.body
  | some id => program.routines[id]?.map (·.body)

lemma bodyOf?_some {program : Program} {id : RoutineId} {routine : Routine}
    (found : program.routines[id]? = some routine) :
    program.bodyOf? (some id) = some routine.body := by
  simp [bodyOf?, found]

/-- The names that a part uses, with the types that they are used at. -/
def uses (program : Program) (part : Option RoutineId) : List (String × Ty) :=
  ((program.bodyOf? part).map Stmt.uses).getD []

def calls (program : Program) (part : Option RoutineId) : List RoutineId :=
  ((program.bodyOf? part).map Stmt.calls).getD []

/-- Some declaration gives the name the type, and may reach the part: it is the part's own, or the
part has none of its own and is called by a part that the declaration reaches. -/
inductive Hands (program : Program) (name : String) (type : Ty) : Option RoutineId → Prop
  | own {part} : (name, type) ∈ program.storage part → Hands program name type part
  | down {caller id} : Hands program name type caller → id ∈ program.calls caller →
    (∀ other, (name, other) ∉ program.storage (some id)) → Hands program name type (some id)

lemma Hands.declared {program : Program} {name : String} {type : Ty} {part : Option RoutineId}
    (h : program.Hands name type part) : ∃ owner, (name, type) ∈ program.storage owner := by
  induction h with
  | own declared => exact ⟨_, declared⟩
  | down _ _ _ ih => exact ih

end Program

end SmallPascal
