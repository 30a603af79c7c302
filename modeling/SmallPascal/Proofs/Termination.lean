import SmallPascal.Proofs.Descent
import SmallPascal.Proofs.LongestMatch
import SmallPascal.Proofs.ProgramRecognition

/-! Reading always ends. A scanner takes at least one character wherever there is more than layout,
and between two turns of any loop or recursion of a reader there is at least one token. So a reader
is given by its turns alone, by recursion on the characters that are left, and its bounds are never
reached. -/

namespace SmallPascal

open Steps

namespace Parse

variable {whole : Tokens} {n m : Nat} {α : Type}

/-- Wherever fewer than `n` tokens are left, both readers come to the same, and take a token. -/
def Takes (whole : Tokens) (n : Nat) (p q : Parse α) : Prop :=
  ∀ m ≤ n, Agrees whole m (fun _ => m - 1) p q

namespace Takes

variable {p q : Parse α}

lemma agree (h : Takes whole n p q) : Agrees whole n (fun _ => n - 1) p q := h n (Nat.le_refl n)

lemma le (h : Takes whole n p q) : Agrees whole n (fun _ => n) p q :=
  h.agree.mono (Nat.le_refl n) fun _ => Nat.sub_le n 1

lemma mono (h : Takes whole n p q) (few : m ≤ n) : Takes whole m p q :=
  fun k less => h k (Nat.le_trans less few)

lemma bind {β : Type} {f g : α → Parse β} (h : Takes whole n p q)
    (next : ∀ m ≤ n - 1, ∀ a, Agrees whole m (fun _ => m) (f a) (g a)) :
    Takes whole n (p >>= f) (q >>= g) := fun m few => (h m few).bind (next (m - 1) (by omega))

end Takes

/-! ### Expressions -/

lemma agree_fold (e : Expr) : Agrees whole n (fun _ => n) (fold e) (fold e) := by
  rw [fold_eq]
  exact .get fun _ => .pure (Nat.le_refl n)

lemma agree_binary (op : BinaryOp) (operator : Token) (left right : Expr) :
    Agrees whole n (fun _ => n) (binary op operator left right)
      (binary op operator left right) := by
  unfold binary
  split
  · exact agree_fold _
  · exact .fail

lemma agree_unary (op : UnaryOp) (operator : Token) (operand : Expr) :
    Agrees whole n (fun _ => n) (unary op operator operand) (unary op operator operand) := by
  unfold unary
  split
  · exact agree_fold _
  · exact .fail

lemma agree_coerce (e : Expr) (target : Ty) (span : Span) (destination : Destination) :
    Agrees whole n (fun _ => n) (coerce e target span destination)
      (coerce e target span destination) :=
  .require (.ite (fun _ => agree_fold _) fun _ => .pure (Nat.le_refl n))

section

variable {p q : Parse Expr}

lemma grows_operation (operator? : Kind → Option BinaryOp) (h : Takes whole n p q) :
    Grows whole n (operation operator? p) (operation operator? q) := by
  intro m few left
  refine Agrees.peek.bind fun operator => ?_
  rcases operator? operator.kind with _ | op
  · exact .pure (Nat.le_refl m)
  · refine Agrees.next_le.bind fun _ => (h m few).bind fun right => ?_
    exact (agree_binary op operator left right).map fun _ => Nat.le_refl _

lemma Takes.chain (operator? : Kind → Option BinaryOp) (h : Takes whole n p q) :
    Takes whole n (chain operator? p) (chain operator? q) :=
  h.bind fun m few first => .extend (grows_operation operator? (h.mono (by omega))) first

lemma Takes.expressionOf (h : Takes whole n p q) :
    Takes whole n (expressionOf p) (expressionOf q) :=
  (h.chain _).chain _

lemma Takes.subscriptOf (h : Takes whole n p q) : Takes whole n (subscriptOf p) (subscriptOf q) :=
  h.expressionOf.bind fun m _ _ => .require (.pure (Nat.le_refl m))

lemma agree_bracketOf (h : Takes whole n p q) (name : Token) (array : Ty) :
    Agrees whole n (fun found => if found.isSome then n - 1 else n) (bracketOf p name array)
      (bracketOf q name array) := by
  refine Agrees.check.bind fun opens => .ite (fun _ => ?_) fun _ => .pure (Nat.le_refl n)
  refine Agrees.next_le.bind fun bracket => ?_
  cases array with
  | array low high item =>
    refine h.subscriptOf.agree.bind fun index =>
      (Agrees.expect (by decide)).bind fun close => .pure ?_
    exact Nat.sub_le _ _
  | _ => exact .fail

lemma grows_subscripted (h : Takes whole n p q) (name : Token) :
    Grows whole n (subscripted p name) (subscripted q name) := by
  intro m few array
  refine (agree_bracketOf (h.mono few) name array.type).bind fun found => ?_
  rcases found with _ | ⟨step, close⟩
  · exact .pure (Nat.le_refl m)
  · exact .pure (Nat.le_refl (m - 1))

lemma agree_argumentsOf (h : Takes whole n p q) (head : Token) :
    Agrees whole n (fun _ => n) (argumentsOf p head) (argumentsOf q head) := by
  refine (Agrees.accept (by decide)).bind fun opens => .cond ?_ (.pure (Nat.le_refl n))
  refine Agrees.check.bind fun closes => ?_
  extract_lets rest
  have closed (args : List Expr) : Agrees whole (n - 1) (fun _ => n) (rest args) (rest args) :=
    Agrees.expect_le.bind fun close => .pure (Nat.sub_le n 1)
  refine .ite (fun _ => closed []) fun _ =>
    (Agrees.separated (by decide) (Nat.le_refl _) ?_ ?_).bind closed
  · exact (h.expressionOf _ (Nat.sub_le n 1)).mono (Nat.le_refl _) fun _ => Nat.sub_le _ _
  · exact fun m few => (h.expressionOf m (by omega)).mono (Nat.le_refl m) fun _ => Nat.sub_le _ _

lemma agree_callOf (h : Takes whole n p q) (symbol : Symbol) (name : Token) :
    Agrees whole n (fun _ => n) (callOf p symbol name) (callOf q symbol name) := by
  have called {params : Params} (callable : (∃ returns, symbol.type = .function params returns) ∨
      symbol.type = .procedure params) :
      Agrees whole n (fun _ => n) (callOf p symbol name) (callOf q symbol name) := by
    rw [callOf_eq symbol name callable, callOf_eq symbol name callable]
    refine (agree_argumentsOf h name).bind fun ⟨args, last⟩ => .require ?_
    exact (Agrees.mapM (fun _ => agree_coerce _ _ _ _) _).bind fun _ => .pure (Nat.le_refl n)
  rcases e : symbol.type with _ | _ | _ | _ | _ | ⟨params, returns⟩ | params
  case function => exact called (.inl ⟨returns, e⟩)
  case procedure => exact called (.inr e)
  all_goals
    unfold callOf
    rw [e]
    exact .fail

lemma agree_valueOf (h : Takes whole n p q) (name : Token) (symbol : Symbol) :
    Agrees whole n (fun _ => n) (valueOf p name symbol) (valueOf q name symbol) := by
  unfold valueOf
  rcases symbol.meaning with value | _ | _ | id | id <;> dsimp only
  case constant => exact .pure (Nat.le_refl n)
  case function =>
    rcases symbol.type with _ | _ | _ | _ | _ | ⟨params, returns⟩ | params
    case function =>
      exact (agree_callOf h symbol name).bind fun ⟨args, span⟩ => .pure (Nat.le_refl n)
    all_goals exact .fail
  case procedure => exact .fail
  all_goals
    exact Agrees.check.bind fun called => .ite (fun _ => .refuse) fun _ => .pure (Nat.le_refl n)

lemma agree_nameOf (h : Takes whole n p q) (name : Token) :
    Agrees whole n (fun _ => n) (nameOf p name) (nameOf q name) := by
  refine Agrees.lookup.bind fun symbol => .get fun s => ?_
  have value := (agree_valueOf h name symbol).bind fun first =>
    .extend (grows_subscripted h name) first
  split
  · exact value
  · exact value
  · exact .refuse

lemma guarded_termOf : Guarded whole n (· - 1) (single termOf) (single termOf) := by
  intro m few p q same _
  have inner : Takes whole (m - 1) (p ()) (q ()) := Agrees.fewer fun k less => same k less ()
  have operand := inner.expressionOf.agree.mono (Nat.le_refl _) fun _ => Nat.sub_le _ _
  refine Agrees.bind_next (fun token notEnd => ?_) fun token ended => ?_
  · split
    · split
      · exact .pure (Nat.le_refl _)
      · exact .throw
    · exact .pure (Nat.le_refl _)
    · exact .pure (Nat.le_refl _)
    · exact .pure (Nat.le_refl _)
    · exact .pure (Nat.le_refl _)
    · exact operand.bind fun e => agree_unary _ _ _
    · exact (inner.agree.mono (Nat.le_refl _) fun _ => Nat.sub_le _ _).bind fun e =>
        agree_unary _ _ _
    · exact (inner.agree.mono (Nat.le_refl _) fun _ => Nat.sub_le _ _).bind fun e =>
        agree_unary _ _ _
    · exact operand.bind fun e => Agrees.expect_le.bind fun _ => .pure (Nat.le_refl _)
    · exact agree_nameOf inner token
    · exact .unexpected
  · rw [ended]
    exact .unexpected

end

lemma monotone_pred : Monotone fun n : Nat => n - 1 := fun _ _ le => Nat.sub_le_sub_right le 1

lemma bounds_term : Bounds (single termOf) fun bound _ => termWithin bound := fun _ _ _ => rfl

lemma takes_term : Takes whole n term term :=
  fun _ _ => guarded_termOf.unbounded monotone_pred bounds_term bounds_term ()

lemma takes_expression : Takes whole n expression expression := takes_term.expressionOf

lemma agree_constantValue (e : Expr) :
    Agrees whole n (fun _ => n) (constantValue e) (constantValue e) := by
  rw [constantValue_eq]
  rcases e.constant? with (⟨fault, span⟩ | _) | value
  · exact .pure (Nat.le_refl n)
  · exact .exhausted
  · exact .pure (Nat.le_refl n)

/-! ### Statements -/

lemma agree_assigned (target : Token) (type : Ty) :
    Agrees whole n (fun _ => n) (assigned target type) (assigned target type) := by
  refine Agrees.expect_le.bind fun sign => (takes_expression n (Nat.le_refl n)).bind fun value => ?_
  exact (agree_coerce _ _ _ _).mono (Nat.le_refl _) fun _ => Nat.sub_le n 1

lemma agree_assignment (target : Token) (type : Ty) (slot : String) :
    Agrees whole n (fun _ => n) (assignment target type slot) (assignment target type slot) :=
  (agree_assigned target type).bind fun _ => .pure (Nat.le_refl n)

/-- One more index of an element, if there is one. -/
def deepened (name : Token) (found : List IndexStep × Ty) :
    Parse (Option (List IndexStep × Ty)) := do
  match ← bracketOf term name found.2 with
  | some (step, _) => return some (found.1 ++ [step], step.item)
  | none => return none

lemma path_eq (name : Token) (type : Ty) : path name type = extend (deepened name) ([], type) := rfl

lemma grows_deepened (name : Token) : Grows whole n (deepened name) (deepened name) := by
  intro m few found
  refine (agree_bracketOf takes_term name found.2).bind fun next => ?_
  rcases next with _ | ⟨step, close⟩
  · exact .pure (Nat.le_refl m)
  · exact .pure (Nat.le_refl (m - 1))

lemma agree_path (name : Token) (type : Ty) :
    Agrees whole n (fun _ => n) (path name type) (path name type) := by
  rw [path_eq]
  exact .extend (grows_deepened name) _

lemma agree_storing (name : Token) (symbol : Symbol) :
    Agrees whole n (fun _ => n) (storing name symbol) (storing name symbol) := by
  refine Agrees.check.bind fun called => .ite (fun _ => .refuse) fun _ => ?_
  refine Agrees.check.bind fun indexed => .ite (fun _ => ?_) fun _ => agree_assignment _ _ _
  refine (agree_path name symbol.type).bind fun ⟨steps, item⟩ => ?_
  exact (agree_assigned name item).bind fun _ => .pure (Nat.le_refl n)

lemma agree_setResult (name : Token) (symbol : Symbol) (id : RoutineId) :
    Agrees whole n (fun _ => n) (setResult name symbol id) (setResult name symbol id) := by
  refine Agrees.check.bind fun assigns => .ite (fun _ => .get fun s => ?_) fun _ => .fail
  split
  · exact agree_assignment _ _ _
  · exact .fail

lemma agree_nameStatement : Agrees whole n (fun _ => n) nameStatement nameStatement := by
  refine Agrees.next_le.bind fun name => Agrees.lookup.bind fun symbol => ?_
  rcases symbol.meaning with value | _ | _ | id | id
  · exact .fail
  · exact agree_storing name symbol
  · exact agree_storing name symbol
  · exact agree_setResult name symbol id
  · exact (agree_callOf takes_term symbol name).bind fun ⟨args, span⟩ => .pure (Nat.le_refl n)

lemma takes_condition (word : Kind) : Takes whole n (condition word) (condition word) :=
  takes_expression.bind fun m _ _ => .require (.pure (Nat.le_refl m))

lemma agree_loopVariable : Agrees whole n (fun _ => n) loopVariable loopVariable :=
  Agrees.expect_le.bind fun _ => Agrees.lookup.bind fun _ => .require (.pure (Nat.le_refl n))

lemma takes_loopLimit : Takes whole n loopLimit loopLimit :=
  takes_expression.bind fun m _ _ => .require (.pure (Nat.le_refl m))

lemma agree_writelnStatement : Agrees whole n (fun _ => n) writelnStatement writelnStatement :=
  Agrees.next_le.bind fun keyword => (agree_argumentsOf takes_term keyword).bind fun _ =>
    .pure (Nat.le_refl n)

section

variable {p q : Parse Stmt} (inner : ∀ k ≤ n - 1, Agrees whole k (fun _ => k) p q)

include inner

lemma agree_blockOf : Agrees whole n (fun _ => n) (blockOf p) (blockOf q) := by
  refine (Agrees.expect (by decide)).bind fun first => ?_
  refine (Agrees.separated (by decide) (Nat.le_refl _) (inner _ (Nat.le_refl _)) inner).bind
    fun statements => ?_
  exact Agrees.expect_le.bind fun last => .pure (Nat.sub_le n 1)

lemma agree_ifOf : Agrees whole n (fun _ => n) (ifOf p) (ifOf q) := by
  refine Agrees.next_le.bind fun keyword => (takes_condition .ifWord).agree.bind fun test => ?_
  refine Agrees.expect_le.bind fun _ => (inner _ (Nat.le_refl _)).bind fun yes => ?_
  refine (Agrees.accept (by decide)).bind fun more => .cond ?_ (.pure (Nat.sub_le n 1))
  exact (inner _ (Nat.sub_le _ _)).bind fun no => .pure (by omega)

lemma agree_whileOf : Agrees whole n (fun _ => n) (whileOf p) (whileOf q) := by
  refine Agrees.next_le.bind fun keyword => (takes_condition .whileWord).agree.bind fun test => ?_
  exact Agrees.expect_le.bind fun _ => (inner _ (Nat.le_refl _)).bind fun body =>
    .pure (Nat.sub_le n 1)

lemma agree_forOf : Agrees whole n (fun _ => n) (forOf p) (forOf q) := by
  refine Agrees.next_le.bind fun keyword => agree_loopVariable.bind fun name => ?_
  refine (agree_assignment name .integer name.lexeme).bind fun initializer =>
    Agrees.expect_le.bind fun _ => ?_
  refine takes_loopLimit.agree.bind fun limit => Agrees.expect_le.bind fun _ => ?_
  exact (inner _ (Nat.le_refl _)).bind fun body => .pure (Nat.sub_le n 1)

end

lemma guarded_statementOf : Guarded whole n id (single statementOf) (single statementOf) := by
  intro m few p q same _
  have inner := Agrees.fewer fun k less => same k less ()
  refine Agrees.peek.bind fun token => ?_
  split
  · exact agree_blockOf inner
  · exact agree_ifOf inner
  · exact agree_whileOf inner
  · exact agree_forOf inner
  · exact agree_writelnStatement
  · exact agree_nameStatement
  · exact .pure (Nat.le_refl m)

lemma bounds_statement : Bounds (single statementOf) fun bound _ => statementWithin bound :=
  fun _ _ _ => rfl

lemma agree_statement : Agrees whole n (fun _ => n) statement statement :=
  guarded_statementOf.unbounded monotone_id bounds_statement bounds_statement ()

lemma agree_block : Agrees whole n (fun _ => n) block block :=
  agree_blockOf fun _ _ => agree_statement

/-! ### Declarations -/

lemma agree_arrayBound : Agrees whole n (fun _ => n) arrayBound arrayBound := by
  have e : Agrees whole n (fun _ => n) expression expression := takes_expression.le
  refine e.asConstant.bind fun e => .require ((agree_constantValue e).bind fun found => ?_)
  rcases found with ⟨fault, span⟩ | (n | _ | _ | _ | _)
  · exact .throw
  · exact .pure (Nat.le_refl _)
  all_goals exact .fail

lemma guarded_typeOf : Guarded whole n (· - 1) (single typeOf) (single typeOf) := by
  intro m few p q same _
  have inner := Agrees.fewer fun k less => same k less ()
  refine Agrees.bind_next (fun token notEnd => ?_) fun token ended => ?_
  · split
    · exact .pure (Nat.le_refl _)
    · exact .pure (Nat.le_refl _)
    · exact .pure (Nat.le_refl _)
    · refine Agrees.expect_le.bind fun _ => agree_arrayBound.bind fun low =>
        Agrees.expect_le.bind fun _ => ?_
      refine agree_arrayBound.bind fun high => Agrees.expect_le.bind fun _ =>
        Agrees.expect_le.bind fun _ => ?_
      refine ((inner _ (Nat.le_refl _)).mono (Nat.le_refl _) fun _ => Nat.sub_le _ _).bind
        fun item => ?_
      exact .ite (fun _ => .refuse) fun _ => .pure (Nat.le_refl _)
    · exact .unexpected
  · rw [ended]
    exact .unexpected

lemma bounds_type : Bounds (single typeOf) fun bound _ => typeWithin bound := fun _ _ _ => rfl

lemma takes_type : Takes whole n type type :=
  fun _ _ => guarded_typeOf.unbounded monotone_pred bounds_type bounds_type ()

lemma agree_type : Agrees whole n (fun _ => n) type type :=
  takes_type.agree.mono (Nat.le_refl n) fun _ => Nat.sub_le n 1

lemma takes_name : Takes whole n (expect .identifier) (expect .identifier) :=
  fun _ _ => .expect (by decide)

lemma takes_separated {p : Parse α} {separator : Kind} (notEnd : separator ≠ .endOfText)
    (h : ∀ n, Takes whole n p p) : Takes whole n (separated separator p) (separated separator p) :=
  fun m _ => .separated notEnd (Nat.sub_le m 1) (h m).agree fun k _ =>
    (h k).agree.mono (Nat.le_refl k) fun _ => Nat.sub_le k 1

lemma Takes.turns {p : Parse α} {more : Parse Bool} (h : Takes whole n p p)
    (asked : ∀ m, Agrees whole m (fun _ => m) more more) : Turns whole n more more p p := by
  refine fun m few => ⟨m, (asked m).mono (Nat.le_refl m) fun found => ?_, h m few⟩
  split <;> exact Nat.le_refl m

lemma agree_moreNames : Agrees whole n (fun _ => n) moreNames moreNames := by
  refine (Agrees.accept (by decide)).bind fun comma => .cond ?_ (.pure (Nat.le_refl n))
  exact Agrees.check.bind fun _ => .pure (Nat.sub_le n 1)

lemma takes_names : Takes whole n names names := takes_separated (by decide) fun _ => takes_name

lemma takes_constantNames : Takes whole n constantNames constantNames := by
  refine takes_name.bind fun m _ _ => ?_
  have others : Agrees whole m (fun _ => m) (many moreNames (expect .identifier))
      (many moreNames (expect .identifier)) := .many (takes_name.turns fun _ => agree_moreNames)
  exact others.bind fun _ => .pure (Nat.le_refl m)

lemma agree_typed : Agrees whole n (fun _ => n) (some <$> type) (some <$> type) :=
  agree_type.map fun _ => Nat.le_refl n

lemma takes_constantGroup : Takes whole n constantGroup constantGroup := by
  refine takes_constantNames.bind fun m _ group => ?_
  refine Agrees.accept_le.bind fun typed => ?_
  extract_lets rest
  have declared (declared? : Option Ty) :
    Agrees whole m (fun _ => m) (rest declared?) (rest declared?) := by
    have e : Agrees whole m (fun _ => m) expression expression := takes_expression.le
    refine Agrees.expect_le.bind fun sign => e.asConstant.bind fun e =>
      Agrees.expect_le.bind fun _ => ?_
    extract_lets behind
    have valued (e : Expr) : Agrees whole m (fun _ => m) (behind e) (behind e) := by
      refine (agree_constantValue e).bind fun found => ?_
      rcases found with ⟨fault, span⟩ | value
      · exact .fail
      · exact (Agrees.forM (fun _ => .declare) group).bind fun _ => .pure (Nat.le_refl m)
    cases declared? with
    | some declared => exact (agree_coerce e declared _ _).bind valued
    | none => exact valued e
  exact .ite (fun _ => agree_typed.bind declared) fun _ => declared none

lemma takes_variableGroup : Takes whole n variableGroup variableGroup := by
  refine takes_names.bind fun m _ group => Agrees.expect_le.bind fun _ =>
    agree_type.bind fun common => ?_
  refine Agrees.expect_le.bind fun _ => ?_
  exact (Agrees.forM (fun _ => .declare) group).bind fun _ => .pure (Nat.le_refl m)

lemma takes_groups {group : Parse Declarations} (h : ∀ n, Takes whole n group group) :
    Takes whole n (groups group) (groups group) := by
  intro m _
  refine Agrees.next_le.bind fun _ => (h m).agree.bind fun first => ?_
  exact (Agrees.many ((h _).turns fun _ => .check)).bind fun _ => .pure (Nat.le_refl _)

lemma takes_parameterGroup : Takes whole n parameterGroup parameterGroup :=
  takes_names.bind fun m _ _ => Agrees.expect_le.bind fun _ => agree_type.bind fun _ =>
    .pure (Nat.le_refl m)

lemma agree_parameters : Agrees whole n (fun _ => n) parameters parameters := by
  refine (Agrees.accept (by decide)).bind fun opens => .cond ?_ (.pure (Nat.le_refl n))
  refine Agrees.check.bind fun closes => ?_
  extract_lets rest
  have closed (groups : List (List (Token × Ty))) :
      Agrees whole (n - 1) (fun _ => n) (rest groups) (rest groups) :=
    Agrees.expect_le.bind fun _ => .pure (Nat.sub_le n 1)
  refine .ite (fun _ => closed []) fun _ => ?_
  have groups : Takes whole (n - 1) (separated .semicolon parameterGroup)
      (separated .semicolon parameterGroup) :=
    takes_separated (by decide) fun _ => takes_parameterGroup
  exact groups.le.bind closed

lemma takes_routineHead : Takes whole n routineHead routineHead := by
  intro m _
  refine Agrees.next_le.bind fun keyword => (takes_name m (Nat.le_refl m)).bind fun name => ?_
  refine agree_parameters.bind fun params => ?_
  extract_lets rest
  have headed (returns : Option Ty) :
    Agrees whole (m - 1) (fun _ => m - 1) (rest returns) (rest returns) :=
    Agrees.expect_le.bind fun _ => .pure (Nat.le_refl _)
  exact .ite (fun _ => Agrees.expect_le.bind fun _ => agree_typed.bind headed) fun _ => headed none

lemma agree_enter (routine : Routine) (name : Token) :
    Agrees whole n (fun _ => n) (enter routine name) (enter routine name) := by
  refine .get fun _ => Agrees.declare.bind fun _ => .bind (.modify ?_) fun _ =>
    .pure (Nat.le_refl n)
  exact fun _ => rfl

section

variable {p q : Parse Unit}

lemma turns_sections (h : Takes whole n p q) :
    Turns whole n moreDeclarations moreDeclarations (declarationOf p) (declarationOf q) := by
  intro m few
  refine ⟨m, Agrees.peek.bind fun token => ?_, Agrees.peek.bind fun token => ?_⟩
  · split <;> exact .pure (Nat.le_refl m)
  · split
    · exact (takes_groups fun _ => takes_constantGroup) m (Nat.le_refl m)
    · exact (takes_groups fun _ => takes_variableGroup) m (Nat.le_refl m)
    · exact (h m few).bind fun _ => .pure (Nat.le_refl _)

lemma agree_declarationsOf (h : Takes whole n p q) :
    Agrees whole n (fun _ => n) (declarationsOf p) (declarationsOf q) := by
  rw [declarationsOf_eq, declarationsOf_eq]
  exact (Agrees.many (turns_sections h)).map fun _ => Nat.le_refl n

lemma agree_bodyOf (h : Takes whole n p q) (params : List (Token × Ty)) :
    Agrees whole n (fun _ => n) (bodyOf p params) (bodyOf q params) :=
  (Agrees.forM (fun _ => .declare) params).bind fun _ => (agree_declarationsOf h).bind fun _ =>
    agree_block.bind fun _ => .pure (Nat.le_refl n)

end

lemma guarded_routineOf : Guarded whole n (· - 1) (single routineOf) (single routineOf) := by
  intro m few p q same _
  have inner : Takes whole (m - 1) (p ()) (q ()) := Agrees.fewer fun k less => same k less ()
  refine (takes_routineHead m (Nat.le_refl m)).bind fun ⟨head, name, params⟩ => ?_
  refine (agree_enter head name).bind fun id => ?_
  refine (agree_bodyOf inner params).inRoutine.bind fun ⟨locals, body⟩ => ?_
  exact Agrees.expect_le.bind fun _ => Agrees.modify fun _ => rfl

lemma bounds_routine : Bounds (single routineOf) fun bound _ => routineWithin bound :=
  fun _ _ _ => rfl

lemma takes_routine : Takes whole n routine routine :=
  fun _ _ => guarded_routineOf.unbounded monotone_pred bounds_routine bounds_routine ()

/-! ### Whole texts -/

lemma agree_program : Agrees whole n (fun _ => n) program program := by
  refine Agrees.expect_le.bind fun _ => Agrees.expect_le.bind fun name =>
    Agrees.expect_le.bind fun _ => ?_
  refine (agree_declarationsOf takes_routine).bind fun declarations => ?_
  refine agree_block.bind fun body => ?_
  refine Agrees.expect_le.bind fun _ => Agrees.expect_le.bind fun _ => .get fun s => ?_
  refine .bind (.modify ?_) fun _ => .pure (Nat.le_refl n)
  exact fun _ => rfl

lemma agree_wholeExpression : Agrees whole n (fun _ => n) wholeExpression wholeExpression :=
  (takes_expression.agree.mono (Nat.le_refl n) fun _ => Nat.sub_le n 1).bind fun _ =>
    Agrees.expect_le.bind fun _ => .pure (Nat.le_refl n)

end Parse

/-! ### Scanning -/

lemma isLayout_iff {cs : List Char} : IsLayout cs ↔ (splitLayout cs).2 = [] := by
  have parts := splitLayout_append cs
  constructor
  · intro layout
    have length := congrArg List.length parts
    have skipped := layout.length_le List.prefix_rfl
    rw [List.length_append] at length
    exact List.length_eq_zero_iff.1 (by omega)
  · intro none
    have layout := isLayout_splitLayout cs
    rw [none, List.append_nil] at parts
    rwa [parts] at layout

namespace Cursor

variable {cursor : Cursor} {text : String}

/-- The cursor behind so many readings, whatever comes of them. -/
def ahead (cursor : Cursor) : Nat → Cursor
  | 0 => cursor
  | n + 1 => cursor.next.2.ahead n

lemma next_of_isLayout (h : IsLayout cursor.rest) :
    ∃ token, cursor.next.1 = .ok token ∧ token.kind = .endOfText := by
  have none := isLayout_iff.1 h
  refine ⟨⟨.endOfText, "", ?_⟩, ?_, rfl⟩
  rotate_left
  · simp only [next, none]
    rfl

lemma offset_lt (h : ¬ IsLayout cursor.rest) :
    cursor.place.offset < cursor.next.2.place.offset := by
  have taken := List.length_pos_iff.2 (Item.taken_ne_nil (mt isLayout_iff.2 h))
  have := cursor.offset_next
  omega

lemma Within.length {cs : List Char} (h : cursor.Within cs) :
    cursor.place.offset + cursor.rest.length = cs.length := by
  obtain ⟨before, rfl, place⟩ := h
  rw [place, Position.after_start, List.length_append]

lemma exists_ahead_endOfText (cursor : Cursor) : ∃ n ≤ cursor.rest.length, ∃ token,
    (cursor.ahead n).next.1 = .ok token ∧ token.kind = .endOfText := by
  by_cases layout : IsLayout cursor.rest
  · exact ⟨0, Nat.zero_le _, next_of_isLayout layout⟩
  · have fewer := next_rest_length_lt (mt isLayout_iff.2 layout)
    obtain ⟨n, few, ended⟩ := exists_ahead_endOfText cursor.next.2
    exact ⟨n + 1, by omega, ended⟩
termination_by cursor.rest.length

lemma scan_ends (cursor : Cursor) : ∃ n ≤ cursor.rest.length, cursor.scan.2 = cursor.ahead (n + 1) ∧
    (∀ m < n, ∃ token, (cursor.ahead m).next.1 = .ok token ∧ token.kind ≠ .endOfText) ∧
    ((∃ d, (cursor.ahead n).next.1 = .error d ∧ cursor.scan.1 = .error d) ∨
      ∃ token tokens, (cursor.ahead n).next.1 = .ok token ∧ token.kind = .endOfText ∧
        cursor.scan.1 = .ok tokens ∧ tokens.length = n + 1) := by
  fun_induction Cursor.scan cursor with
  | case1 cursor d behind read =>
    refine ⟨0, Nat.zero_le _, by simp [ahead, read], by simp, .inl ⟨d, by simp [ahead, read], rfl⟩⟩
  | case2 cursor token behind read ended =>
    refine ⟨0, Nat.zero_le _, by simp [ahead, read], by simp,
      .inr ⟨token, [token], ?_, ended, rfl, rfl⟩⟩
    simp [ahead, read]
  | case3 cursor token behind read more tokens last found ih =>
    have fewer := rest_length_lt read more
    have ahead_succ (n : Nat) : cursor.ahead (n + 1) = behind.ahead n := by rw [ahead, read]
    rw [found] at ih
    obtain ⟨n, few, reached, earlier, ended⟩ := ih
    refine ⟨n + 1, by omega, ?_, ?_, ?_⟩
    · rw [ahead_succ]
      exact reached
    · rintro (_ | m) less
      · exact ⟨token, by rw [ahead, read], more⟩
      · rw [ahead_succ]
        exact earlier m (by omega)
    · rw [ahead_succ]
      rcases ended with ⟨d, failed, rfl⟩ | ⟨final, rest, ended, isEnd, rfl, length⟩
      · exact .inl ⟨d, failed, rfl⟩
      · exact .inr ⟨final, token :: rest, ended, isEnd, rfl, congrArg (· + 1) length⟩

end Cursor

namespace Tokens

lemma EndOf.exists_ahead {tokens : Tokens} {cursor : Cursor} (h : tokens.EndOf (ofCursor cursor)) :
    ∃ n, tokens = ofCursor (cursor.ahead n) ∧
      n + tokens.items.length = (ofCursor cursor).items.length ∧
      n + (cursor.ahead n).rest.length ≤ cursor.rest.length := by
  fun_induction ofCursor cursor with
  | case1 cursor none place =>
    refine ⟨0, ?_, ?_, by rw [Cursor.ahead, Nat.zero_add]⟩
    · have items := List.suffix_nil.1 h.items
      have last := h.last
      rw [Cursor.ahead, ofCursor, dif_pos none]
      cases tokens
      cases items
      cases last
      rfl
    · rw [List.suffix_nil.1 h.items]
      rfl
  | case2 cursor some more ih =>
    obtain ⟨ends, last, items⟩ := h
    rcases List.suffix_cons_iff.1 items with whole | later
    · refine ⟨0, ?_, by rw [whole, Nat.zero_add], by rw [Cursor.ahead, Nat.zero_add]⟩
      rw [Cursor.ahead, ofCursor, dif_neg some]
      cases tokens
      cases whole
      cases last
      rfl
    · obtain ⟨n, same, length, left⟩ := ih ⟨ends, last, later⟩
      have fewer := Cursor.next_rest_length_lt some
      refine ⟨n + 1, same, ?_, ?_⟩
      · change _ = (ofCursor cursor.next.2).items.length + 1
        omega
      · rw [Cursor.ahead]
        omega

lemma peek_ofCursor (cursor : Cursor) : (ofCursor cursor).peek = cursor.next.1 := by
  rw [ofCursor]
  split
  next none =>
    simp only [Cursor.next, none]
    rfl
  next => rfl

lemma tail_of_isLayout {cursor : Cursor} (h : IsLayout cursor.rest) :
    (ofCursor cursor).tail = ofCursor cursor := by
  rw [ofCursor, dif_pos (isLayout_iff.1 h)]
  rfl

lemma tail_of_not_isLayout {cursor : Cursor} (h : ¬ IsLayout cursor.rest) :
    (ofCursor cursor).tail = ofCursor cursor.next.2 := by
  rw [ofCursor, dif_neg (mt isLayout_iff.2 h)]
  rfl

lemma endOf_ofCursor (cursor : Cursor) : (ofCursor cursor).EndOf (ofCursor cursor) :=
  ⟨(orderly_ofCursor cursor).last, rfl, List.suffix_rfl⟩

end Tokens

/-! ### Recursion on the text -/

namespace Parse

variable {α ι : Type}

/-- The reader is what one turn makes of it. A turn only needs it where fewer tokens and fewer
characters are left, and so no other reader is what the same turn makes of it. -/
structure DescendsFrom (turn : (ι → Parse α) → ι → Parse α) (p : ι → Parse α) : Prop where
  turn_eq : ∀ (cursor : Cursor) (s : ParseState) (q : ι → Parse α), s.tokens = .ofCursor cursor →
    (∀ (later : Cursor) (t : ParseState) i, t.tokens = .ofCursor later →
      t.tokens.items.length < s.tokens.items.length → later.rest.length < cursor.rest.length →
      q i t = p i t) →
    ∀ i, turn q i s = p i s
  unique : ∀ q : ι → Parse α,
    (∀ (cursor : Cursor) (s : ParseState) i, s.tokens = .ofCursor cursor → q i s = turn q i s) →
    ∀ (cursor : Cursor) (s : ParseState) i, s.tokens = .ofCursor cursor → q i s = p i s

abbrev Descends (turn : Parse α → Parse α) (p : Parse α) : Prop :=
  DescendsFrom (single turn) fun _ => p

lemma Guarded.descends {left : Nat → Nat} {turn : (ι → Parse α) → ι → Parse α}
    {f : Nat → ι → Parse α}
    (h : ∀ whole n, Guarded whole n left turn turn) (mono : Monotone left) (hf : Bounds turn f) :
    DescendsFrom turn (Parse.unbounded f) := by
  have turned (cursor : Cursor) (s : ParseState) (q : ι → Parse α)
    (tokens : s.tokens = .ofCursor cursor)
      (same : ∀ (later : Cursor) (t : ParseState) i, t.tokens = .ofCursor later →
        t.tokens.items.length < s.tokens.items.length → later.rest.length < cursor.rest.length →
        q i t = Parse.unbounded f i t) (i : ι) : turn q i s = Parse.unbounded f i s := by
    refine turn_eq (h s.tokens) mono hf (tokens ▸ Tokens.endOf_ofCursor cursor)
      (fun t i on less => ?_) i
    obtain ⟨n, rest, length, fewer⟩ :=
      (tokens ▸ on : t.tokens.EndOf (.ofCursor cursor)).exists_ahead
    rw [← tokens] at length
    exact same (cursor.ahead n) t i rest less (by omega)
  refine ⟨turned, fun q solves cursor => ?_⟩
  -- by induction on the characters that are left
  induction left : cursor.rest.length using Nat.strongRecOn generalizing cursor with
  | ind n ih =>
    subst left
    intro s i tokens
    rw [solves cursor s i tokens]
    exact turned cursor s q tokens (fun later t i rest _ fewer => ih _ fewer later rfl t i rest) i

lemma Grows.descends {step : α → Parse (Option α)} (h : ∀ whole n, Grows whole n step step) :
    DescendsFrom (extendOf step) (extend step) :=
  Guarded.descends (fun whole n => (h whole n).guarded) monotone_id (bounds_extend step)

lemma Turns.descends {more : Parse Bool} {item : Parse α}
    (h : ∀ whole n, Turns whole n more more item item) :
    Descends (manyOf more item) (many more item) :=
  Guarded.descends (fun whole n => (h whole n).guarded) monotone_id (bounds_many more item)

lemma turns_separated {separator : Kind} {item : Parse α} {whole : Tokens} {n : Nat}
    (notEnd : separator ≠ .endOfText) (h : ∀ n, Agrees whole n (fun _ => n) item item) :
    Turns whole n (accept separator) (accept separator) item item :=
  fun m _ => ⟨m - 1, .accept notEnd, h (m - 1)⟩

lemma Agrees.exists_ahead {left : Nat → α → Nat} {p : Parse α}
    (h : ∀ whole n, Agrees whole n (left n) p p)
    {cursor : Cursor} {s : ParseState} (tokens : s.tokens = .ofCursor cursor) :
    ∃ n ≤ cursor.rest.length, (p s).2.tokens = .ofCursor (cursor.ahead n) := by
  have on := (h s.tokens _ s (tokens ▸ Tokens.endOf_ofCursor cursor) (Nat.lt_succ_self _)).2.1
  rw [tokens] at on
  obtain ⟨n, same, -, left⟩ := on.exists_ahead
  exact ⟨n, by omega, same⟩

structure Recursions : Prop where
  term : Descends termOf term
  type : Descends typeOf type
  statement : Descends statementOf statement
  routine : Descends routineOf routine
  factors : DescendsFrom (extendOf (operation Kind.multiplicative? Parse.term))
    (extend (operation Kind.multiplicative? Parse.term))
  summands :
    DescendsFrom (extendOf (operation Kind.additive? (chain Kind.multiplicative? Parse.term)))
    (extend (operation Kind.additive? (chain Kind.multiplicative? Parse.term)))
  subscripts (name : Token) : DescendsFrom (extendOf (subscripted Parse.term name))
    (extend (subscripted Parse.term name))
  path (name : Token) : DescendsFrom (extendOf (deepened name)) (extend (deepened name))
  arguments : Descends (manyOf (accept .comma) expression) (many (accept .comma) expression)
  statements :
    Descends (manyOf (accept .semicolon) Parse.statement) (many (accept .semicolon) Parse.statement)
  names : Descends (manyOf (accept .comma) (expect .identifier))
    (many (accept .comma) (expect .identifier))
  constantNames :
    Descends (manyOf moreNames (expect .identifier)) (many moreNames (expect .identifier))
  constantGroups :
    Descends (manyOf (check .identifier) constantGroup) (many (check .identifier) constantGroup)
  variableGroups :
    Descends (manyOf (check .identifier) variableGroup) (many (check .identifier) variableGroup)
  parameterGroups : Descends (manyOf (accept .semicolon) parameterGroup)
    (many (accept .semicolon) parameterGroup)
  sections : Descends (manyOf moreDeclarations (declarationOf Parse.routine))
    (many moreDeclarations (declarationOf Parse.routine))

lemma recursions : Recursions where
  term := Guarded.descends (fun _ _ => guarded_termOf) monotone_pred bounds_term
  type := Guarded.descends (fun _ _ => guarded_typeOf) monotone_pred bounds_type
  statement := Guarded.descends (fun _ _ => guarded_statementOf) monotone_id bounds_statement
  routine := Guarded.descends (fun _ _ => guarded_routineOf) monotone_pred bounds_routine
  factors := Grows.descends fun _ _ => grows_operation _ takes_term
  summands := Grows.descends fun _ _ => grows_operation _ (takes_term.chain _)
  subscripts name := Grows.descends fun _ _ => grows_subscripted takes_term name
  path name := Grows.descends fun _ _ => grows_deepened name
  arguments := Turns.descends fun _ _ => turns_separated (by decide) fun _ => takes_expression.le
  statements := Turns.descends fun _ _ => turns_separated (by decide) fun _ => agree_statement
  names := Turns.descends fun _ _ => turns_separated (by decide) fun _ => .expect_le
  constantNames := Turns.descends fun _ _ => takes_name.turns fun _ => agree_moreNames
  constantGroups := Turns.descends fun _ _ => takes_constantGroup.turns fun _ => .check
  variableGroups := Turns.descends fun _ _ => takes_variableGroup.turns fun _ => .check
  parameterGroups := Turns.descends fun _ _ => turns_separated (by decide) fun _ =>
    takes_parameterGroup.le
  sections := Turns.descends fun _ _ => turns_sections takes_routine

end Parse

/-- **Reading always ends.** Wherever a scanner has come to, it reads the end of the text if nothing
but layout is left, and otherwise moves on within the text, whether or not it succeeds. So the end
is read after at most as many readings as there are characters, even past faults, and a scan of all
tokens stops. A reader takes its tokens as the scanner does, each of its recursions and loops
descends along the text, and what it leaves are the tokens behind at most as many readings. -/
theorem reading_ends (text : String) :
    (∀ cursor : Cursor, cursor.Reached text →
      (IsLayout cursor.rest → ∃ token, cursor.next.1 = .ok token ∧ token.kind = .endOfText) ∧
      (¬ IsLayout cursor.rest → cursor.place.offset < cursor.next.2.place.offset ∧
        cursor.next.2.place.offset ≤ text.length) ∧
      (∃ n ≤ text.length, ∃ token, (cursor.ahead n).next.1 = .ok token ∧ token.kind = .endOfText) ∧
      ∃ n ≤ text.length, cursor.scan.2 = cursor.ahead (n + 1) ∧
        (∀ m < n, ∃ token, (cursor.ahead m).next.1 = .ok token ∧ token.kind ≠ .endOfText) ∧
        ((∃ d, (cursor.ahead n).next.1 = .error d ∧ cursor.scan.1 = .error d) ∨
          ∃ token tokens, (cursor.ahead n).next.1 = .ok token ∧ token.kind = .endOfText ∧
            cursor.scan.1 = .ok tokens ∧ tokens.length = n + 1)) ∧
    (∀ cursor : Cursor, (Tokens.ofCursor cursor).peek = cursor.next.1 ∧
      (IsLayout cursor.rest → (Tokens.ofCursor cursor).tail = .ofCursor cursor) ∧
      (¬ IsLayout cursor.rest → (Tokens.ofCursor cursor).tail = .ofCursor cursor.next.2)) ∧
    Parse.Recursions ∧
    ∀ folding, (∃ n ≤ text.length, (Parse.program (.ofText text folding)).2.tokens =
        .ofCursor ((Cursor.ofText text).ahead n)) ∧
      ∃ n ≤ text.length, (Parse.wholeExpression (.ofText text folding)).2.tokens =
        .ofCursor ((Cursor.ofText text).ahead n) := by
  refine ⟨fun cursor reached => ?_, fun cursor => ?_, Parse.recursions, fun folding => ⟨?_, ?_⟩⟩
  · have length := reached.within.length
    rw [String.length_toList] at length
    refine ⟨Cursor.next_of_isLayout, fun more => ⟨Cursor.offset_lt more, ?_⟩, ?_, ?_⟩
    · have behind := reached.within.next.2.2.2.length
      rw [String.length_toList] at behind
      omega
    · obtain ⟨n, few, ended⟩ := cursor.exists_ahead_endOfText
      exact ⟨n, by omega, ended⟩
    · obtain ⟨n, few, ended⟩ := cursor.scan_ends
      exact ⟨n, by omega, ended⟩
  · exact ⟨Tokens.peek_ofCursor cursor, Tokens.tail_of_isLayout, Tokens.tail_of_not_isLayout⟩
  · exact text.length_toList ▸ Parse.Agrees.exists_ahead (fun _ _ => Parse.agree_program)
      (rfl : (ParseState.ofText text folding).tokens = .ofCursor (.ofText text))
  · exact text.length_toList ▸ Parse.Agrees.exists_ahead (fun _ _ => Parse.agree_wholeExpression)
      (rfl : (ParseState.ofText text folding).tokens = .ofCursor (.ofText text))

/-- Faults are passed one by one, and a comment that is never closed is the last of them. -/
theorem reading_ends_malformed :
    let text := "1 # \x7b"
    let cursor := (Cursor.ofText text).next.2
    cursor.Reached text ∧ ¬ IsLayout cursor.rest ∧
      cursor.place.offset < cursor.next.2.place.offset ∧
      cursor.next.2.place.offset ≤ 5 ∧
      (∃ n ≤ 5, ∃ token, (cursor.ahead n).next.1 = .ok token ∧ token.kind = .endOfText) ∧
      IsLayout (cursor.ahead 2).rest ∧
      ∃ token, (cursor.ahead 2).next.1 = .ok token ∧ token.kind = .endOfText := by
  intro text cursor
  have reached : cursor.Reached text := .behind .next .start
  have reached' : (cursor.ahead 2).Reached text := .behind .next (.behind .next reached)
  have more : ¬ IsLayout cursor.rest := mt isLayout_iff.1 (by decide +kernel)
  have layout : IsLayout (cursor.ahead 2).rest := isLayout_iff.2 (by decide +kernel)
  have length : text.length = 5 := by decide +kernel
  obtain ⟨-, moves, ends, -⟩ := (reading_ends text).1 cursor reached
  rw [length] at moves ends
  exact ⟨reached, more, (moves more).1, (moves more).2, ends, layout,
    ((reading_ends text).1 _ reached').1 layout⟩

end SmallPascal
