import Mathlib.Tactic.Lemma
import SmallPascal.Parse.Declaration
import SmallPascal.Proofs.Computing
import SmallPascal.Proofs.Grammar

/-!
The second pass: what a tree of the grammar means. It knows nothing of tokens that are yet to come,
and has a value for every tree that keeps the rules on names and types.
-/

namespace SmallPascal

/-- What a tree is understood by: the names in scope, whether it is in a constant, and the routine
whose body it is in. -/
structure Setting where
  scopes : Scopes
  inConstant : Bool
  within : Option RoutineId

namespace Setting

def start : Setting := ⟨.empty, false, none⟩

def constant (setting : Setting) : Setting := { setting with inConstant := true }

/-- What a name in an expression stands for, which in a constant has to be a constant. -/
def value? (setting : Setting) (name : Token) : Option Symbol := do
  let symbol ← setting.scopes.resolve name.lexeme
  match symbol.meaning, setting.inConstant with
  | .constant _, _ | _, false => some symbol
  | _, true => none

def declare? (setting : Setting) (symbol : Symbol) : Option Setting :=
  match setting.scopes.declare symbol with
  | .ok scopes => some { setting with scopes }
  | .error _ => none

def declareAll? (setting : Setting) : List Symbol → Option Setting
  | [] => some setting
  | symbol :: rest => do (← setting.declare? symbol).declareAll? rest

end Setting

/-! ### Expressions -/

namespace Expr

/-- An operation between two operands, if their types suit the operator. -/
def operation? (op : BinaryOp) (left right : Expr) : Option Expr := do
  let type ← op.resultType? left.type right.type
  return (Expr.binary op left right type (left.span.through right.span)).folded

/-- An operation on one operand, if its type suits the operator. -/
def signed? (op : UnaryOp) (mark : Token) (operand : Expr) : Option Expr := do
  let type ← op.resultType? operand.type
  return (Expr.unary op operand type (mark.span.through operand.span)).folded

/-- A value as one of the type `target`, if it can be. -/
def fitted? (e : Expr) (target : Ty) : Option Expr :=
  if target.accepts e.type then
    some (if target.widens e.type then (Expr.widen e target e.span).folded else e)
  else none

def typed? (e : Expr) (type : Ty) : Option Expr := if e.type = type then some e else none

def fittedAll? (args : List Expr) (params : Params) : Option (List Expr) :=
  if args.length = params.length then (args.zip params).mapM fun (arg, _, type) => arg.fitted? type
  else none

end Expr

/-- The parameters of a routine of the type. -/
def Ty.params? : Ty → Option Params
  | .function params _ | .procedure params => some params
  | _ => none

/-- The call of a function that the symbol stands for. -/
def Symbol.call? (symbol : Symbol) (id : RoutineId) (name : Token) (args : List Expr)
    (last : Token) : Option Expr :=
  match symbol.type with
  | .function params returns => do
    let args ← Expr.fittedAll? args params
    return .call id name.lexeme args returns (name.span.through last.span)
  | _ => none

def Token.literal? (token : Token) : Option Expr :=
  match token.kind with
  | .integerLiteral => do return .literal (.integer (← token.integer?)) .integer token.span
  | .realLiteral => some (.literal (.real token.real) .real token.span)
  | .stringLiteral => some (.literal (.string token.lexeme) .string token.span)
  | .trueWord => some (.literal (.boolean true) .boolean token.span)
  | .falseWord => some (.literal (.boolean false) .boolean token.span)
  | _ => none

namespace Phrase

variable (setting : Setting)

mutual

def elaborate : Phrase → Option Expr
  | .literal token => token.literal?
  | .name token => do
    let symbol ← setting.value? token
    match symbol.meaning with
    | .constant value => some (.literal value symbol.type token.span)
    | .var | .array => some (.var token.lexeme symbol.type token.span)
    | .function id => symbol.call? id token [] token
    | .procedure _ => none
  | .call token args closing => do
    let symbol ← setting.value? token
    match symbol.meaning with
    | .function id => symbol.call? id token (← elaborateAll args) closing
    | _ => none
  | .index array subscript closing => do
    let array ← array.elaborate
    match array.type with
    | .array low high item => do
      let subscript ← (← subscript.elaborate).typed? .integer
      return .index array subscript low high item (array.span.through closing.span)
    | _ => none
  | .unary op mark operand => do (← operand.elaborate).signed? op mark
  | .binary op left right => do Expr.operation? op (← left.elaborate) (← right.elaborate)

def elaborateAll : List Phrase → Option (List Expr)
  | [] => some []
  | e :: rest => do return (← e.elaborate) :: (← elaborateAll rest)

end

lemma elaborateAll_eq_mapM (es : List Phrase) :
    elaborateAll setting es = es.mapM (elaborate setting) := by
  induction es with
  | nil => rfl
  | cons e rest ih => rw [elaborateAll, ih, List.mapM_cons]

def bound? (e : Phrase) : Option Integer := do
  let e ← (← e.elaborate setting.constant).typed? .integer
  match e.constant? with
  | .ok (.integer n) => some n
  | _ => none

/-- The subscripts that lead into an array of the given type, and the type of what they lead to. -/
def path? : List Phrase → Ty → Option (List IndexStep × Ty)
  | [], type => some ([], type)
  | e :: rest, .array low high item => do
    let e ← (← e.elaborate setting).typed? .integer
    let (steps, last) ← path? rest item
    return (⟨e, low, high, item⟩ :: steps, last)
  | _ :: _, _ => none

end Phrase

/-! ### Statements -/

namespace Clause

variable (setting : Setting)

/-- The assignment of a value to `target`, which holds values of the given type and keeps them under
the name `slot`. -/
def assignment? (target : Token) (type : Ty) (slot : String) (value : Phrase) : Option Stmt := do
  let value ← (← value.elaborate setting).fitted? type
  return .assign slot value (target.span.through value.span)

/-- The assignment of a value to what a symbol stands for, or to an element of it. -/
def stored? (name : Token) (symbol : Symbol) (value : Phrase) : List Phrase → Option Stmt
  | [] => assignment? setting name symbol.type name.lexeme value
  | subscripts => do
    let (steps, item) ← Phrase.path? setting subscripts symbol.type
    let value ← (← value.elaborate setting).fitted? item
    return .assignElement name.lexeme steps value (name.span.through value.span)

mutual

def elaborate : Clause → Option Stmt
  | .block first clauses last => do
    return .block (← elaborateAll clauses) (first.span.through last.span)
  | .ifThen keyword test yes => do
    let test ← (← test.elaborate setting).typed? .boolean
    let yes ← yes.elaborate
    return .ifThen test yes (keyword.span.through yes.span)
  | .ifThenElse keyword test yes no => do
    let test ← (← test.elaborate setting).typed? .boolean
    let yes ← yes.elaborate
    let no ← no.elaborate
    return .ifThenElse test yes no (keyword.span.through no.span)
  | .whileDo keyword test body => do
    let test ← (← test.elaborate setting).typed? .boolean
    let body ← body.elaborate
    return .whileDo test body (keyword.span.through body.span)
  | .forTo keyword name start limit body => do
    let symbol ← setting.scopes.resolve name.lexeme
    if symbol.meaning = .var ∧ symbol.type = .integer then do
      let start ← assignment? setting name .integer name.lexeme start
      let limit ← (← limit.elaborate setting).typed? .integer
      let body ← body.elaborate
      return .forTo name.lexeme start limit body (keyword.span.through body.span)
    else none
  | .writeln keyword args last => do
    return .writeln (← Phrase.elaborateAll setting args) (keyword.span.through last.span)
  | .assign name subscripts value => do
    let symbol ← setting.scopes.resolve name.lexeme
    match symbol.meaning, subscripts, symbol.type with
    | .var, subscripts, _ | .array, subscripts, _ => stored? setting name symbol value subscripts
    | .function id, [], .function _ returns =>
      -- the result of a function is set in its own body
      if setting.within = some id then assignment? setting name returns resultSlot value else none
    | _, _, _ => none
  | .call name args last => do
    let symbol ← setting.scopes.resolve name.lexeme
    match symbol.meaning with
    | .procedure id => do
      let args ← Expr.fittedAll? (← Phrase.elaborateAll setting args) (← symbol.type.params?)
      return .call id name.lexeme args (name.span.through last.span)
    | _ => none
  | .empty behind => some (.skip behind.span)

def elaborateAll : List Clause → Option (List Stmt)
  | [] => some []
  | s :: rest => do return (← s.elaborate) :: (← elaborateAll rest)

end

lemma elaborateAll_eq_mapM (clauses : List Clause) :
    elaborateAll setting clauses = clauses.mapM (elaborate setting) := by
  induction clauses with
  | nil => rfl
  | cons s rest ih => rw [elaborateAll, ih, List.mapM_cons]

lemma elaborate_block (first last : Token) (clauses : List Clause) :
    (block first clauses last).elaborate setting = do
      return .block (← clauses.mapM (elaborate setting)) (first.span.through last.span) := by
  rw [elaborate, elaborateAll_eq_mapM]

end Clause

/-! ### Declarations -/

def TypePhrase.elaborate (setting : Setting) : TypePhrase → Option Ty
  | .simple word =>
    match word.kind with
    | .integerType => some .integer
    | .realType => some .real
    | .booleanType => some .boolean
    | _ => none
  | .array low high item => do
    let low ← low.bound? setting
    let high ← high.bound? setting
    let item ← item.elaborate setting
    if high.toInt < low.toInt then none else some (.array low high item)

/-- The meaning of a type that may be left out. -/
def TypePhrase.elaborate? (setting : Setting) : Option TypePhrase → Option (Option Ty)
  | none => some none
  | some type => some <$> type.elaborate setting

/-- A value as one of a type that may be left out. -/
def Expr.suited? (e : Expr) : Option Ty → Option Expr
  | none => some e
  | some type => e.fitted? type

/-- Declares constants of the given type whose value is that of `e`. -/
def Setting.constants? (setting : Setting) (names : List Token) (type : Ty) (e : Expr) :
    Option (Setting × Declarations) := do
  let value ← e.constant?.toOption
  let setting ← setting.declareAll?
    (names.map fun name => ⟨name.lexeme, .constant value, type, name.span⟩)
  return (setting, ⟨names.map fun name => (name.lexeme, value), []⟩)

/-- Declares constants with the value that is written, of its type if none is given. -/
def Setting.initialized? (setting : Setting) (names : List Token) (type? : Option Ty)
    (value : Phrase) : Option (Setting × Declarations) := do
  let e ← (← value.elaborate setting.constant).suited? type?
  setting.constants? names (type?.getD e.type) e

/-- The meaning of constants, and the setting behind them. -/
def ConstantPhrase.elaborate (setting : Setting) (group : ConstantPhrase) :
    Option (Setting × Declarations) := do
  setting.initialized? group.names (← TypePhrase.elaborate? setting group.type) group.value

def VariablePhrase.places? (setting : Setting) (group : VariablePhrase) :
    Option (List (Token × Ty)) := do
  let type ← group.type.elaborate setting
  return group.names.map fun name => (name, type)

def storages (places : List (Token × Ty)) : List Symbol :=
  places.map fun (name, type) => .storage name.lexeme type name.span

/-- The meaning of variables, and the setting behind them. -/
def VariablePhrase.elaborate (setting : Setting) (group : VariablePhrase) :
    Option (Setting × Declarations) := do
  let places ← group.places? setting
  let setting ← setting.declareAll? (storages places)
  return (setting, ⟨[], places.map fun (name, type) => (name.lexeme, type)⟩)

/-- The meanings of groups one after the other. -/
def elaborateGroups {τ : Type} (elaborate : Setting → τ → Option (Setting × Declarations))
    (setting : Setting) : List τ → Option (Setting × List Declarations)
  | [] => some (setting, [])
  | group :: rest => do
    let (setting, part) ← elaborate setting group
    let (setting, parts) ← elaborateGroups elaborate setting rest
    return (setting, part :: parts)

/-- A routine of which only the head is known. -/
def Routine.ofHead (keyword name : Token) (params : List (Token × Ty)) (returns : Option Ty) :
    Routine :=
  { name := name.lexeme
    params := params.map fun (param, type) => (param.lexeme, type)
    returns
    locals := []
    body := .skip name.span
    span := keyword.span.through name.span }

def parameters? (setting : Setting) (params : List VariablePhrase) : Option (List (Token × Ty)) :=
  List.flatten <$> params.mapM (·.places? setting)

/-- The head of a routine: a routine without its body, and its parameters. -/
def Section.head? (setting : Setting) (keyword name : Token) (params : List VariablePhrase)
    (returns : Option TypePhrase) : Option (Routine × List (Token × Ty)) := do
  let places ← parameters? setting params
  let returns ← TypePhrase.elaborate? setting returns
  return (.ofHead keyword name places returns, places)

namespace Section

mutual

/-- The meaning of a section: what it declares, its routines, which are numbered from `count` on,
and the setting behind it. -/
def elaborate (setting : Setting) (count : Nat) :
    Section → Option (Setting × Declarations × List Routine)
  | .constants groups => do
    let (setting, parts) ← elaborateGroups ConstantPhrase.elaborate setting groups
    return (setting, .join parts, [])
  | .vars groups => do
    let (setting, parts) ← elaborateGroups VariablePhrase.elaborate setting groups
    return (setting, .join parts, [])
  | .routine keyword name params returns sections body => do
    let (head, params) ← head? setting keyword name params returns
    let meaning := if head.returns.isSome then Meaning.function count else .procedure count
    let outer ← setting.declare? ⟨name.lexeme, meaning, head.type, name.span⟩
    let inner ← { outer with scopes := outer.scopes.push, within := some count }.declareAll?
      (storages params)
    let (inner, parts, routines) ← elaborateAll inner (count + 1) sections
    let body ← body.elaborate inner
    let routine := { head with locals := (Declarations.join parts).vars, body }
    return ({ outer with scopes := inner.scopes.pop }, .none, routine :: routines)

/-- The meanings of sections one after the other. -/
def elaborateAll (setting : Setting) (count : Nat) :
    List Section → Option (Setting × List Declarations × List Routine)
  | [] => some (setting, [], [])
  | s :: rest => do
    let (setting, part, routines) ← s.elaborate setting count
    let (setting, parts, others) ← elaborateAll setting (count + routines.length) rest
    return (setting, part :: parts, routines ++ others)

end

end Section

def Script.elaborate (script : Script) : Option Program := do
  let (setting, parts, routines) ← Section.elaborateAll .start 0 script.sections
  let body ← script.body.elaborate setting
  let declarations := Declarations.join parts
  return ⟨script.name.lexeme, declarations.constants, declarations.vars, routines, body⟩

end SmallPascal
