import SmallPascal.Parse.Declaration
import SmallPascal.Proofs.ExpressionReading
import SmallPascal.Proofs.RecastReading

/-!
The readers of expressions, statements and declarations on what is recast, each in its turn, up to
the reader of programs.
-/

namespace SmallPascal

namespace Parse

variable {ρ : Type} [Record ρ] {m : Recast} {α β : Type} {f : α → β}

/-! ### Expressions -/

lemma recasts_fold {e e' : Expr} (h : m.expr (e.foldedIf m.before) = e'.foldedIf m.after) :
    Recasts ρ m m.expr (fold e) (fold e') := by
  intro s folds
  obtain ⟨record, folded⟩ := fold_apply e s
  have folded' : fold e' (m.state s) = (.ok (e'.foldedIf m.after), m.state s) := by
    rw [fold_eq]
    rfl
  refine ⟨by rw [folded]; exact folds, ?_⟩
  rw [folded, folded', folds, ← h]
  rfl

variable (law : m.Lawful)

include law

lemma recasts_compute (e : Expr) :
    Recasts ρ m (Except.mapError m.stop) (compute e) (compute (m.expr e)) := by
  have carries : m.Carries .empty .empty := ⟨rfl, fun _ _ _ => rfl⟩
  have value : (m.expr e).constant? = e.constant?.mapError m.stop := by
    unfold Expr.constant?
    rw [law.eval carries]
    rfl
  refine Recasts.bind (.modify (fun _ => rfl) fun _ => rfl) fun _ => .pure value.symm

lemma recasts_binary (op : BinaryOp) (operator : Token) (left right : Expr) :
    Recasts ρ m m.expr (binary op operator left right)
      (binary op (m.token operator) (m.expr left) (m.expr right)) := by
  unfold binary
  rw [law.type, law.type, law.place, law.place, ← law.through]
  cases op.resultType? left.type right.type with
  | some => exact recasts_fold (law.binary ..)
  | none => exact .fail rfl

lemma recasts_unary (op : UnaryOp) (operator : Token) (operand : Expr) :
    Recasts ρ m m.expr (unary op operator operand)
    (unary op (m.token operator) (m.expr operand)) := by
  unfold unary
  have operatorSpan : (m.token operator).span = m.span operator.span := rfl
  rw [law.type, law.place, operatorSpan, ← law.through]
  cases op.resultType? operand.type with
  | some => exact recasts_fold (law.unary ..)
  | none => exact .fail rfl

lemma recasts_coerce (e : Expr) (target : Ty) (span : Span) (destination : Destination) :
    Recasts ρ m m.expr (coerce e target span destination)
      (coerce (m.expr e) target (m.span span) destination) := by
  unfold coerce
  rw [law.type, law.place]
  refine .require Iff.rfl (.fail rfl) (.ite Iff.rfl ?_ (.pure rfl))
  exact recasts_fold (law.widen ..)

lemma recasts_chain {operator? : Kind → Option BinaryOp} {operand : Reading ρ Expr}
    {operand' : Parse Expr} (h : Recasts ρ m m.expr operand operand') :
    Recasts ρ m m.expr (chain operator? operand) (chain operator? operand') := by
  refine h.bind fun first => .extend (fun left => Recasts.peek.bind fun operator => ?_) first
  have kind : (m.token operator).kind = operator.kind := rfl
  rw [kind]
  cases operator? operator.kind with
  | none => exact .pure rfl
  | some op =>
    refine Recasts.next.bind fun _ => h.bind fun right => ?_
    exact (recasts_binary law op operator left right).map fun _ => rfl

section

variable {term : Reading ρ Expr} {term' : Parse Expr} (hterm : Recasts ρ m m.expr term term')

include hterm

lemma recasts_expressionOf : Recasts ρ m m.expr (expressionOf term) (expressionOf term') :=
  recasts_chain law (recasts_chain law hterm)

lemma recasts_subscriptOf : Recasts ρ m m.expr (subscriptOf term) (subscriptOf term') := by
  refine (recasts_expressionOf law hterm).bind fun e => ?_
  rw [law.type, law.place]
  exact .require Iff.rfl (.fail rfl) (.pure rfl)

lemma recasts_bracketOf (name : Token) (array : Ty) :
    Recasts ρ m (Option.map (Prod.map m.indexStep m.span)) (bracketOf term name array)
      (bracketOf term' (m.token name) array) := by
  refine Recasts.check.bind fun opens => .ite Iff.rfl (Recasts.next.bind fun bracket => ?_)
    (.pure rfl)
  cases array with
  | array low high item =>
    exact (recasts_subscriptOf law hterm).bind fun _ => Recasts.expect.bind fun _ => .pure rfl
  | _ => exact .fail rfl

lemma recasts_argumentsOf (head : Token) :
    Recasts ρ m (Prod.map (List.map m.expr) m.span) (argumentsOf term head)
      (argumentsOf term' (m.token head)) := by
  refine Recasts.accept.bind fun opens => .ite Iff.rfl (Recasts.check.bind fun closes => ?_)
    (.pure rfl)
  have close (args : List Expr) : Recasts ρ m (Prod.map (List.map m.expr) m.span)
      (do let last ← expect .rightParen; return (args, last.span))
      (do let last ← expect .rightParen; return (args.map m.expr, last.span)) :=
    Recasts.expect.bind fun _ => .pure rfl
  cases closes with
  | true => exact close []
  | false => exact (Recasts.separated (recasts_expressionOf law hterm)).bind close

lemma recasts_callOf (symbol : Symbol) (name : Token) :
    Recasts ρ m (Prod.map (List.map m.expr) m.span) (callOf term symbol name)
      (callOf term' (m.symbol symbol) (m.token name)) := by
  have call {params : Params} (callable : (∃ returns, symbol.type = .function params returns) ∨
      symbol.type = .procedure params) : Recasts ρ m (Prod.map (List.map m.expr) m.span)
        (callOf term symbol name) (callOf term' (m.symbol symbol) (m.token name)) := by
    rw [callOf_eq symbol name callable, callOf_eq (m.symbol symbol) (m.token name) callable]
    refine (recasts_argumentsOf law hterm name).bind fun ⟨args, last⟩ => ?_
    dsimp only [Prod.map, Recast.token]
    rw [← law.through, List.length_map, List.zip_map_left]
    refine .require Iff.rfl (.fail rfl) ?_
    refine (Recasts.mapM (fun ⟨arg, param, type⟩ => ?_) _).bind fun _ => .pure rfl
    dsimp only [Prod.map, id]
    rw [law.place]
    exact recasts_coerce law arg type arg.span _
  rcases e : symbol.type with _ | _ | _ | _ | _ | ⟨params, returns⟩ | params
  case function => exact call (.inl ⟨returns, e⟩)
  case procedure => exact call (.inr e)
  all_goals
    unfold callOf
    have type : (m.symbol symbol).type = symbol.type := rfl
    rw [type, e]
    exact .fail rfl

lemma recasts_valueOf (name : Token) (symbol : Symbol) :
    Recasts ρ m m.expr (valueOf term name symbol)
      (valueOf term' (m.token name) (m.symbol symbol)) := by
  obtain ⟨_, meaning, type, span⟩ := symbol
  unfold valueOf
  cases meaning with
  | constant value => exact .pure (law.literal ..)
  | var | array =>
    refine Recasts.check.bind fun opens => ?_
    exact .ite Iff.rfl ((Recasts.fail (f := id) rfl).bind fun _ => .pure (law.var ..))
      (.pure (law.var ..))
  | function id =>
    cases type with
    | function params returns =>
      refine (recasts_callOf law hterm _ name).bind fun ⟨args, last⟩ => .pure ?_
      exact law.call ..
    | _ => exact .fail rfl
  | procedure => exact .fail rfl

lemma recasts_nameOf (name : Token) :
    Recasts ρ m m.expr (nameOf term name) (nameOf term' (m.token name)) := by
  refine (Recasts.lookup name).bind fun symbol => .get fun s _ => ?_
  extract_lets indexed indexed'
  have hindexed : Recasts ρ m m.expr (indexed ()) (indexed' ()) := by
    refine (recasts_valueOf law hterm name symbol).bind fun first => .extend (fun array => ?_) first
    rw [law.type, law.place]
    refine (recasts_bracketOf law hterm name array.type).bind fun found => ?_
    cases found with
    | none => exact .pure rfl
    | some found =>
      refine .pure ?_
      dsimp only [Option.map, Prod.map]
      rw [law.index, law.through]
      rfl
  have constant : (m.state s).inConstant = s.inConstant := rfl
  have meaning : (m.symbol symbol).meaning = symbol.meaning := rfl
  rw [constant, meaning]
  generalize s.inConstant = inConstant
  generalize symbol.meaning = meaning
  split
  · exact hindexed
  · exact hindexed
  · exact (Recasts.fail (f := id) rfl).bind fun _ => hindexed

lemma recasts_termOf : Recasts ρ m m.expr (termOf term) (termOf term') := by
  refine Recasts.next.bind fun token => ?_
  have kind : (m.token token).kind = token.kind := rfl
  have number : (m.token token).integer? = token.integer? := rfl
  rw [kind, number]
  generalize token.kind = kind
  split
  · cases token.integer? with
    | some => exact .pure (law.literal ..)
    | none => exact .throw rfl
  · exact .pure (law.literal ..)
  · exact .pure (law.literal ..)
  · exact .pure (law.literal ..)
  · exact .pure (law.literal ..)
  · exact (recasts_expressionOf law hterm).bind fun e => recasts_unary law _ token e
  · exact hterm.bind fun e => recasts_unary law _ token e
  · exact hterm.bind fun e => recasts_unary law _ token e
  · exact (recasts_expressionOf law hterm).bind fun _ => Recasts.expect.bind fun _ => .pure rfl
  · exact recasts_nameOf law hterm token
  · exact .unexpected

end

lemma recasts_termWithin : ∀ bound, Recasts ρ m m.expr (termWithin bound) (termWithin bound)
  | 0 => .exhausted
  | bound + 1 => fun s folds => recasts_termOf law (recasts_termWithin bound) s folds

lemma recasts_term :
    Recasts ρ m m.expr term term := Recasts.budget.bind fun bound => recasts_termWithin law bound

lemma recasts_expression : Recasts ρ m m.expr expression expression :=
  recasts_expressionOf law (recasts_term law)

lemma recasts_wholeExpression : Recasts ρ m m.expr wholeExpression wholeExpression :=
  (recasts_expression law).bind fun _ => Recasts.expect.bind fun _ => .pure rfl

lemma recasts_constantValue (e : Expr) :
    Recasts ρ m (Except.mapError (Prod.map id m.span)) (constantValue e)
      (constantValue (m.expr e)) := by
  refine (recasts_compute law e).bind fun found => ?_
  rcases found with (_ | _) | _
  · exact .pure rfl
  · exact .exhausted
  · exact .pure rfl

/-! ### Statements -/

lemma recasts_assigned (target : Token) (type : Ty) :
    Recasts ρ m m.expr (assigned target type) (assigned (m.token target) type) :=
  Recasts.expect.bind fun sign => (recasts_expression law).bind fun value =>
    recasts_coerce law value type sign.span _

lemma recasts_assignment (target : Token) (type : Ty) (slot : String) :
    Recasts ρ m m.stmt (assignment target type slot) (assignment (m.token target) type slot) := by
  refine (recasts_assigned law target type).bind fun value => .pure ?_
  rw [law.place]
  exact congrArg (Stmt.assign slot (m.expr value)) (law.through ..)

lemma recasts_path (name : Token) (type : Ty) :
    Recasts ρ m (Prod.map (List.map m.indexStep) id) (path name type)
      (path (m.token name) type) := by
  refine .extend (fun ⟨steps, type⟩ => ?_) ([], type)
  refine (recasts_bracketOf law (recasts_term law) name type).bind fun found => ?_
  cases found with
  | none => exact .pure rfl
  | some found =>
    refine .pure (congrArg some (Prod.ext ?_ rfl))
    exact List.map_append

lemma recasts_storing (name : Token) (symbol : Symbol) :
    Recasts ρ m m.stmt (storing name symbol) (storing (m.token name) (m.symbol symbol)) := by
  refine Recasts.check.bind fun calls => ?_
  extract_lets stored stored'
  have hstored : Recasts ρ m m.stmt (stored ()) (stored' ()) := by
    refine Recasts.check.bind fun opens => .ite Iff.rfl ?_ (recasts_assignment law name _ _)
    refine (recasts_path law name symbol.type).bind fun ⟨steps, item⟩ => ?_
    refine (recasts_assigned law name item).bind fun value => .pure ?_
    rw [law.place]
    exact congrArg (Stmt.assignElement _ _ _) (law.through ..)
  exact .ite Iff.rfl ((Recasts.fail (f := id) rfl).bind fun _ => hstored) hstored

lemma recasts_setResult (name : Token) (symbol : Symbol) (id : RoutineId) :
    Recasts ρ m m.stmt (setResult name symbol id)
      (setResult (m.token name) (m.symbol symbol) id) := by
  refine Recasts.check.bind fun assigns => .ite Iff.rfl (.get fun s _ => ?_) (.fail rfl)
  have type : (m.symbol symbol).type = symbol.type := rfl
  have enclosing : (m.state s).enclosing = s.enclosing := rfl
  rw [type, enclosing]
  generalize (s.enclosing.head? == some id) = inside
  generalize symbol.type = type
  split
  · exact recasts_assignment law name _ _
  · exact .fail rfl

lemma recasts_nameStatement : Recasts ρ m m.stmt nameStatement nameStatement := by
  refine Recasts.next.bind fun name => (Recasts.lookup name).bind fun symbol => ?_
  have meaning : (m.symbol symbol).meaning = symbol.meaning := rfl
  rw [meaning]
  cases symbol.meaning with
  | constant => exact .fail rfl
  | var => exact recasts_storing law name symbol
  | array => exact recasts_storing law name symbol
  | function id => exact recasts_setResult law name symbol id
  | procedure id =>
    exact (recasts_callOf law (recasts_term law) symbol name).bind fun _ => .pure rfl

lemma recasts_condition (word : Kind) : Recasts ρ m m.expr (condition word) (condition word) := by
  refine (recasts_expression law).bind fun e => ?_
  rw [law.type, law.place]
  exact .require Iff.rfl (.fail rfl) (.pure rfl)

omit law [Record ρ] in
lemma recasts_loopVariable : Recasts ρ m m.token loopVariable loopVariable :=
  Recasts.expect.bind fun name => (Recasts.lookup name).bind fun _ => .require Iff.rfl (.fail rfl)
    (.pure rfl)

lemma recasts_loopLimit : Recasts ρ m m.expr loopLimit loopLimit := by
  refine (recasts_expression law).bind fun e => ?_
  rw [law.type, law.place]
  exact .require Iff.rfl (.fail rfl) (.pure rfl)

lemma recasts_writelnStatement : Recasts ρ m m.stmt writelnStatement writelnStatement := by
  refine Recasts.next.bind fun keyword => ?_
  refine (recasts_argumentsOf law (recasts_term law) keyword).bind ?_
  exact fun ⟨args, last⟩ => .pure (congrArg (Stmt.writeln _) (law.through ..))

section

variable {statement : Reading ρ Stmt} {statement' : Parse Stmt}
    (hstatement : Recasts ρ m m.stmt statement statement')

include hstatement

omit [Record ρ] in
lemma recasts_blockOf : Recasts ρ m m.stmt (blockOf statement) (blockOf statement') := by
  refine Recasts.expect.bind fun first => (Recasts.separated hstatement).bind fun statements => ?_
  refine Recasts.expect.bind fun last => .pure ?_
  rw [Recast.stmt, Recast.stmtAll_eq_map, law.through]
  rfl

lemma recasts_ifOf : Recasts ρ m m.stmt (ifOf statement) (ifOf statement') := by
  refine Recasts.next.bind fun keyword => (recasts_condition law .ifWord).bind fun test => ?_
  refine Recasts.expect.bind fun _ => hstatement.bind fun yes => Recasts.accept.bind
    fun alternative => ?_
  refine .ite Iff.rfl (hstatement.bind fun no => .pure ?_) (.pure ?_)
  · rw [Recast.stmt, law.through, m.span_stmt]
    rfl
  · rw [Recast.stmt, law.through, m.span_stmt]
    rfl

lemma recasts_whileOf : Recasts ρ m m.stmt (whileOf statement) (whileOf statement') := by
  refine Recasts.next.bind fun keyword => (recasts_condition law .whileWord).bind fun test => ?_
  refine Recasts.expect.bind fun _ => hstatement.bind fun body => .pure ?_
  rw [Recast.stmt, law.through, m.span_stmt]
  rfl

lemma recasts_forOf : Recasts ρ m m.stmt (forOf statement) (forOf statement') := by
  refine Recasts.next.bind fun keyword => recasts_loopVariable.bind fun name => ?_
  refine (recasts_assignment law name .integer name.lexeme).bind fun start => Recasts.expect.bind
    fun _ => ?_
  refine (recasts_loopLimit law).bind fun limit => Recasts.expect.bind fun _ => ?_
  refine hstatement.bind fun body => .pure ?_
  rw [Recast.stmt, law.through, m.span_stmt]
  rfl

lemma recasts_statementOf :
    Recasts ρ m m.stmt (statementOf statement) (statementOf statement') := by
  refine Recasts.peek.bind fun token => ?_
  have kind : (m.token token).kind = token.kind := rfl
  rw [kind]
  generalize token.kind = kind
  split
  · exact recasts_blockOf law hstatement
  · exact recasts_ifOf law hstatement
  · exact recasts_whileOf law hstatement
  · exact recasts_forOf law hstatement
  · exact recasts_writelnStatement law
  · exact recasts_nameStatement law
  · exact .pure rfl

end

lemma recasts_statementWithin :
    ∀ bound, Recasts ρ m m.stmt (statementWithin bound) (statementWithin bound)
  | 0 => .exhausted
  | bound + 1 => fun s folds => recasts_statementOf law (recasts_statementWithin bound) s folds

lemma recasts_block : Recasts ρ m m.stmt block block :=
  recasts_blockOf law (Recasts.budget.bind fun bound => recasts_statementWithin law bound)

/-! ### Constants and variables -/

lemma recasts_arrayBound : Recasts ρ m id arrayBound arrayBound := by
  refine (Recasts.asConstant (recasts_expression law)).bind fun e => ?_
  rw [law.type, law.place]
  refine .require Iff.rfl (.fail rfl) ((recasts_constantValue law e).bind fun found => ?_)
  rcases found with ⟨fault, span⟩ | value
  · exact .throw rfl
  · cases value with
    | integer => exact .pure rfl
    | _ => exact .fail rfl

lemma recasts_typeOf {item : Reading ρ Ty} {item' : Parse Ty} (h : Recasts ρ m id item item') :
    Recasts ρ m id (typeOf item) (typeOf item') := by
  refine Recasts.next.bind fun token => ?_
  have kind : (m.token token).kind = token.kind := rfl
  rw [kind]
  generalize token.kind = kind
  split
  · exact .pure rfl
  · exact .pure rfl
  · exact .pure rfl
  · refine Recasts.expect.bind fun _ => (recasts_arrayBound law).bind fun low => ?_
    refine Recasts.expect.bind fun _ => (recasts_arrayBound law).bind fun high => ?_
    refine Recasts.expect.bind fun _ => Recasts.expect.bind fun _ => h.bind fun type => ?_
    exact .ite Iff.rfl ((Recasts.fail (f := id) rfl).bind fun _ => .pure rfl) (.pure rfl)
  · exact .unexpected

lemma recasts_typeWithin : ∀ bound, Recasts ρ m id (typeWithin bound) (typeWithin bound)
  | 0 => .exhausted
  | bound + 1 => fun s folds => recasts_typeOf law (recasts_typeWithin bound) s folds

lemma recasts_type : Recasts ρ m id type type := Recasts.budget.bind fun bound => recasts_typeWithin
    law bound

omit law [Record ρ] in
lemma recasts_names : Recasts ρ m (List.map m.token) names names := .separated .expect

omit law [Record ρ] in
lemma recasts_constantNames : Recasts ρ m (List.map m.token) constantNames constantNames := by
  refine Recasts.expect.bind fun first => (Recasts.many ?_ .expect).bind fun _ => .pure rfl
  exact Recasts.accept.bind fun comma => .ite Iff.rfl (Recasts.check.bind fun _ => .pure rfl)
    (.pure rfl)

omit law [Record ρ] in
lemma recasts_declareAll {symbol symbol' : Token → Symbol}
    (h : ∀ name, m.symbol (symbol name) = symbol' (m.token name)) (group : List Token) :
    Recasts ρ m id (group.forM fun name => declare (symbol name))
      ((group.map m.token).forM fun name => declare (symbol' name)) :=
  .forM (fun name => h name ▸ .declare (symbol name)) group

lemma recasts_constantGroup : Recasts ρ m id constantGroup constantGroup := by
  refine recasts_constantNames.bind fun group => Recasts.accept.bind fun typed => ?_
  extract_lets rest rest'
  have declared (declared? : Option Ty) : Recasts ρ m id (rest declared?) (rest' declared?) := by
    refine Recasts.expect.bind fun sign => (Recasts.asConstant (recasts_expression law)).bind
      fun e => ?_
    refine Recasts.expect.bind fun _ => ?_
    extract_lets behind behind'
    have valued (e : Expr) : Recasts ρ m id (behind e) (behind' (m.expr e)) := by
      refine (recasts_constantValue law e).bind fun found => ?_
      rcases found with ⟨fault, span⟩ | value
      · exact .fail rfl
      · dsimp only [Except.mapError]
        rw [law.type]
        refine (recasts_declareAll (fun _ => rfl) group).bind fun _ => .pure ?_
        rw [List.map_map]
        rfl
    cases declared? with
    | some declared => exact (recasts_coerce law e declared sign.span _).bind valued
    | none => exact valued e
  refine .ite Iff.rfl (Recasts.bind (f := id) ?_ declared) (declared none)
  exact (recasts_type law).map fun _ => rfl

lemma recasts_variableGroup : Recasts ρ m id variableGroup variableGroup := by
  refine recasts_names.bind fun group => Recasts.expect.bind fun _ => ?_
  refine (recasts_type law).bind fun common => Recasts.expect.bind fun _ => ?_
  refine (recasts_declareAll (fun _ => rfl) group).bind fun _ => .pure ?_
  rw [List.map_map]
  rfl

omit law [Record ρ] in
lemma recasts_groups {group : Reading ρ Declarations} {group' : Parse Declarations}
    (h : Recasts ρ m id group group') :
    Recasts ρ m id (groups group) (groups group') := by
  refine Recasts.next.bind fun _ => h.bind fun first => (Recasts.many .check h).bind fun rest =>
    .pure ?_
  rw [List.map_id]
  rfl

/-! ### Routines -/

lemma recasts_parameterGroup :
    Recasts ρ m (List.map (Prod.map m.token id)) parameterGroup parameterGroup := by
  refine recasts_names.bind fun group => Recasts.expect.bind fun _ => ?_
  refine (recasts_type law).bind fun common => .pure ?_
  rw [List.map_map, List.map_map]
  rfl

lemma recasts_parameters :
    Recasts ρ m (List.map (Prod.map m.token id)) parameters parameters := by
  refine Recasts.accept.bind fun opens => .ite Iff.rfl ?_ (.pure rfl)
  refine Recasts.check.bind fun closes => ?_
  extract_lets rest rest'
  have closed (groups : List (List (Token × Ty))) : Recasts ρ m (List.map (Prod.map m.token id))
      (rest groups) (rest' (groups.map (List.map (Prod.map m.token id)))) :=
    Recasts.expect.bind fun _ => .pure List.map_flatten
  cases closes with
  | true => exact closed []
  | false => exact (Recasts.separated (recasts_parameterGroup law)).bind closed

lemma recasts_routineHead :
    Recasts ρ m (Prod.map m.routine (Prod.map m.token (List.map (Prod.map m.token id)))) routineHead
      routineHead := by
  refine Recasts.next.bind fun keyword => Recasts.expect.bind fun name => ?_
  refine (recasts_parameters law).bind fun params => ?_
  extract_lets rest rest'
  have headed (returns : Option Ty) : Recasts ρ m
      (Prod.map m.routine (Prod.map m.token (List.map (Prod.map m.token id)))) (rest returns)
      (rest' returns) := by
    refine Recasts.expect.bind fun _ => .pure ?_
    refine Prod.ext ?_ rfl
    dsimp only [Prod.map, Recast.routine, Recast.stmt]
    rw [law.through, List.map_map]
    rfl
  have kind : (m.token keyword).kind = keyword.kind := rfl
  rw [kind]
  refine .ite Iff.rfl (Recasts.expect.bind fun _ => Recasts.bind (f := id) ?_ headed) (headed none)
  exact (recasts_type law).map fun _ => rfl

omit law [Record ρ] in
lemma recasts_enter (routine : Routine) (name : Token) :
    Recasts ρ m id (enter routine name) (enter (m.routine routine) (m.token name)) := by
  refine .get fun s _ => ?_
  have length : (m.state s).routines.length = s.routines.length := List.length_map _
  rw [length]
  refine (Recasts.declare _).bind fun _ => ?_
  refine Recasts.bind (f := id) (.modify (fun t => ?_) fun _ => rfl) fun _ => .pure rfl
  dsimp only [Recast.state]
  rw [List.map_append]
  rfl

omit law [Record ρ] in
lemma recasts_complete (id : RoutineId) (locals : List (String × Ty)) (body : Stmt) :
    Recasts ρ m (fun u => u) (complete id locals body) (complete id locals (m.stmt body)) := by
  refine .modify (fun s => ?_) fun _ => rfl
  have completed :
      (s.routines.map m.routine).modify id (fun r => { r with locals, body := m.stmt body }) =
      (s.routines.modify id fun r => { r with locals, body }).map m.routine := by
    refine List.ext_getElem? fun i => ?_
    simp only [List.getElem?_map, List.getElem?_modify]
    by_cases here : id = i
    · simp only [here, if_true]
      cases s.routines[i]? <;> rfl
    · simp only [here, if_false]
      cases s.routines[i]? <;> rfl
  exact congrArg (ParseState.mk _ _ · _ _ _ _) completed

section

variable {routine : Reading ρ Unit} {routine' : Parse Unit}
    (hroutine : Recasts ρ m id routine routine')

include hroutine

lemma recasts_declarationsOf :
    Recasts ρ m id (declarationsOf routine) (declarationsOf routine') := by
  refine (Recasts.many ?_ ?_).map fun sections => congrArg Declarations.join
    (List.map_id sections).symm
  · refine Recasts.peek.bind fun token => ?_
    have kind : (m.token token).kind = token.kind := rfl
    rw [kind]
    split <;> exact .pure rfl
  · refine Recasts.peek.bind fun token => ?_
    have kind : (m.token token).kind = token.kind := rfl
    rw [kind]
    generalize token.kind = kind
    split
    · exact recasts_groups (recasts_constantGroup law)
    · exact recasts_groups (recasts_variableGroup law)
    · exact hroutine.bind fun _ => .pure rfl

lemma recasts_bodyOf (params : List (Token × Ty)) :
    Recasts ρ m (Prod.map id m.stmt) (bodyOf routine params)
      (bodyOf routine' (params.map (Prod.map m.token id))) := by
  refine Recasts.bind (.forM (fun ⟨param, type⟩ => .declare _) params) fun _ => ?_
  refine (recasts_declarationsOf law hroutine).bind fun declarations => ?_
  exact (recasts_block law).bind fun body => .pure rfl

lemma recasts_routineOf : Recasts ρ m id (routineOf routine) (routineOf routine') := by
  refine (recasts_routineHead law).bind fun ⟨head, name, params⟩ => ?_
  refine (recasts_enter head name).bind fun id => ?_
  refine (Recasts.inRoutine (recasts_bodyOf law hroutine params)).bind fun ⟨locals, body⟩ => ?_
  exact Recasts.expect.bind fun _ => recasts_complete id locals body

end

lemma recasts_routineWithin : ∀ bound, Recasts ρ m id (routineWithin bound) (routineWithin bound)
  | 0 => .exhausted
  | bound + 1 => fun s folds => recasts_routineOf law (recasts_routineWithin bound) s folds

lemma recasts_routine : Recasts ρ m id routine routine :=
  Recasts.budget.bind fun bound => recasts_routineWithin law bound

/-! ### Programs -/

/-- **What is recast is read as the recast of what was read.** -/
theorem recasts_program : Recasts ρ m m.program program program := by
  refine Recasts.expect.bind fun _ => Recasts.expect.bind fun name => ?_
  refine Recasts.expect.bind fun _ => ?_
  refine (recasts_declarationsOf law (recasts_routine law)).bind fun declarations => ?_
  refine (recasts_block law).bind fun body => Recasts.expect.bind fun _ => Recasts.expect.bind
    fun _ => ?_
  refine .get fun s _ => ?_
  exact Recasts.bind (f := id) (.modify (fun _ => rfl) fun _ => rfl) fun _ => .pure rfl

end Parse

end SmallPascal
