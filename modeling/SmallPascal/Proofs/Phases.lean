import SmallPascal.Interpreter
import SmallPascal.Proofs.Fitting
import SmallPascal.Proofs.Regime

/-!
Which phase a fault belongs to. What is wrong with a text is found before anything of it is run, and
is a fault of its tokens, of its syntax, or of the rules on names and types. One kind of fault is
not told apart: a bound of an array that cannot be computed fails the check with the fault of its
computation, while a constant that cannot be computed is a breach of the rules.
-/

namespace SmallPascal

open Steps
open RuntimeFault (IsArithmetic)

/-! ### Constants -/

/-- An overflow or a division by zero, and no shortage of steps. -/
def Stop.IsArithmetic : Stop → Prop
  | .fault found _ => RuntimeFault.IsArithmetic found
  | .outOfSteps => False

/-- Operations on literals, none of which is an array. -/
inductive Expr.Constant : Expr → Prop
  | literal {value type span} : value.HasShape type → type.isArray = false →
    Constant (.literal value type span)
  | widen {operand type span} : Constant operand → type.accepts operand.type →
    type.widens operand.type → Constant (.widen operand type span)
  | binary {op left right type span} : Constant left → Constant right →
    op.Takes left.type right.type type → Constant (.binary op left right type span)
  | unary {op operand type span} : Constant operand → op.Takes operand.type type →
    Constant (.unary op operand type span)

lemma Ty.isArray_of_accepts {target source : Ty} (h : target.accepts source) :
    target.isArray = source.isArray := by
  cases target <;> cases source <;> first | rfl | cases h

lemma Ty.isArray_of_sameAs {target source : Ty} (h : target.sameAs source) :
    target.isArray = source.isArray := by
  cases target <;> cases source <;> first | rfl | cases h

lemma BinaryOp.Takes.isArray {op : BinaryOp} {left right type : Ty} (h : op.Takes left right type) :
    type.isArray = false := by
  cases h <;> rfl

lemma UnaryOp.Takes.isArray {op : UnaryOp} {operand type : Ty} (h : op.Takes operand type) :
    type.isArray = false := by
  cases h with
  | sign _ numeric => rcases Ty.isNumeric_iff.1 numeric with rfl | rfl <;> rfl
  | not => rfl

namespace Expr.Constant

variable {e : Expr}

lemma isArray (h : e.Constant) : e.type.isArray = false := by
  induction h with
  | literal _ single => exact single
  | widen _ accepts _ ih => exact (Ty.isArray_of_accepts accepts).trans ih
  | binary _ _ takes => exact takes.isArray
  | unary _ takes => exact takes.isArray

/-- A constant has a value of its type, or its computation fails by the arithmetic; and it writes no
line. -/
lemma quiet (h : e.Constant) (context : Context) (store : Store) (output : Output) :
    Upholds (· = output) Stop.IsArithmetic (·.HasShape e.type) (e.eval context store) := by
  induction h with
  | literal shaped => exact .pure shaped
  | widen _ accepts widens ih => exact ih.bind fun v hv => .pure (hv.widen accepts widens)
  | binary _ _ takes ihl ihr =>
    exact ihl.bind fun v hv => ihr.bind fun w hw => .ofExcept (takes.apply hv hw)
  | unary _ takes ih => exact ih.bind fun v hv => .ofExcept (takes.apply hv)

lemma constant? (h : e.Constant) : Accounts Stop.IsArithmetic (·.HasShape e.type) e.constant? :=
  (h.quiet .empty .empty #[] #[] rfl).2

end Expr.Constant

namespace Expr

variable {P : Prop} {e : Expr}

/-- The expression is a constant if it is a literal, and if `P` holds. -/
def Apt (P : Prop) (e : Expr) : Prop := P ∨ e.isLiteral → e.Constant

lemma Constant.apt (h : e.Constant) : e.Apt P := fun _ => h

lemma apt_of_not (none : ¬ P) (other : e.isLiteral = false) : e.Apt P := by
  rintro (holds | literal)
  · exact absurd holds none
  · rw [other] at literal
    cases literal

end Expr

/-! ### What a check knows and what it fails with -/

/-- The computation of an array's bound fails. -/
def Diagnostic.IsBound (d : Diagnostic) : Prop :=
  ∃ (e : Expr) (fault : RuntimeFault), e.Constant ∧ e.type = .integer ∧
    e.constant? = .error (.fault fault d.span) ∧ d.fault = .runtime fault

/-- The fault is found in a value that was computed. -/
def SemanticFault.isComputed : SemanticFault → Bool
  | .boundValue _ | .invalidConstant _ => true
  | _ => false

/-- What a check may fail with. A value that it computed gives it no other reason than the
arithmetic. -/
inductive Diagnostic.IsRefusal : Diagnostic → Prop
  | lexical {fault span} : IsRefusal ⟨.lexical fault, span⟩
  | syntactic {fault span} : IsRefusal ⟨.syntactic fault, span⟩
  | semantic {fault span} : fault.isComputed = false → IsRefusal ⟨.semantic fault, span⟩
  | constant {cause span} : cause.IsArithmetic →
    IsRefusal ⟨.semantic (.invalidConstant cause), span⟩
  | bound {d} : d.IsBound → IsRefusal d

lemma Diagnostic.isRefusal_of_lexical {d : Diagnostic} (h : d.fault.phase = .lexical) :
    d.IsRefusal := by
  obtain ⟨fault, span⟩ := d
  cases fault with
  | lexical => exact .lexical
  | _ => cases h

namespace Diagnostic.IsRefusal

variable {d : Diagnostic}

lemma isBound (h : d.IsRefusal) (running : d.fault.phase = .runtime) : d.IsBound := by
  cases h with
  | bound h => exact h
  | _ => cases running

lemma ne_boundValue (h : d.IsRefusal) (tag : Tag) : d.fault ≠ .semantic (.boundValue tag) := by
  rintro same
  cases h with
  | semantic plain =>
    cases same
    cases plain
  | bound h =>
    obtain ⟨_, _, -, -, -, is⟩ := h
    rw [is] at same
    cases same
  | _ => cases same

lemma of_invalidConstant (h : d.IsRefusal) {cause : RuntimeFault}
    (same : d.fault = .semantic (.invalidConstant cause)) : cause.IsArithmetic := by
  cases h with
  | semantic plain =>
    cases same
    cases plain
  | constant arithmetic =>
    cases same
    exact arithmetic
  | bound h =>
    obtain ⟨_, _, -, -, -, is⟩ := h
    rw [is] at same
    cases same
  | _ => cases same

end Diagnostic.IsRefusal

/-- A name for a constant has a value of the constant's type, which is no array. -/
def Symbol.Settled (symbol : Symbol) : Prop :=
  ∀ value, symbol.meaning = .constant value →
    value.HasShape symbol.type ∧ symbol.type.isArray = false

lemma Symbol.settled_storage (name : String) (type : Ty) (span : Span) :
    (Symbol.storage name type span).Settled := by
  intro value constant
  unfold Symbol.storage at constant
  cases array : type.isArray <;> simp [array] at constant

section

variable {ρ : Type} [Record ρ]

/-- What is known throughout a check; `constant` says whether a constant is being read. Nothing but
constants has been computed. -/
structure Checking (constant : Bool) (s : ParseState ρ) : Prop where
  lexical : ∀ d, .error d ∈ s.tokens.items → d.fault.phase = .lexical
  settled : ∀ scope ∈ s.scopes.levels, ∀ symbol ∈ scope, symbol.Settled
  mode : s.inConstant = constant
  computed : ∀ e ∈ Record.entries s.record, e.Constant

/-- Nothing but refusals comes of a check that fails. -/
def checking (ρ : Type) [Record ρ] (constant : Bool) : Regime ρ :=
  ⟨Checking constant, fun _ => True, Diagnostic.IsRefusal⟩

lemma lawful_checking (ρ : Type) [Record ρ] (constant : Bool) : (checking ρ constant).Lawful where
  peek {s} known := by
    unfold Tokens.peek
    split
    · trivial
    next item rest e =>
      cases item with
      | ok => trivial
      | error d =>
        exact Diagnostic.isRefusal_of_lexical (known.lexical d (e ▸ List.mem_cons_self))
  tail known := ⟨fun d among => known.lexical d (List.mem_of_mem_tail among), known.settled,
    known.mode, known.computed⟩
  syntactic _ := .syntactic

lemma Checking.resolve {constant : Bool} {s : ParseState ρ} (known : Checking constant s)
    {name : String} {symbol : Symbol} (h : s.scopes.resolve name = some symbol) :
    symbol.Settled := by
  obtain ⟨scope, among, found⟩ := List.exists_of_findSome?_eq_some h
  exact known.settled scope among symbol (List.mem_of_find?_eq_some found)

end

namespace Parse

variable {ρ : Type} [Record ρ] {b : Bool} {α : Type}

lemma Keeps.semantic {good : α → Prop} {fault : SemanticFault} {span : Span}
    (plain : fault.isComputed = false) :
    Keeps (checking ρ b) good (Parse.fail fault span) := Keeps.fail (.semantic plain)

lemma keeps_lookup (name : Token) :
    Keeps (checking ρ b) Symbol.Settled (lookup name) := by
  refine .get fun s known => ?_
  rcases e : s.scopes.resolve name.lexeme with _ | symbol
  · exact .semantic rfl
  · exact .pure (known.resolve e)

lemma keeps_declare {symbol : Symbol} (h : symbol.Settled) :
    Keeps (checking ρ b) (fun _ => True) (declare symbol) := by
  refine .declare fun s known => ?_
  rcases e : s.scopes.declare symbol with d | scopes
  · unfold Scopes.declare at e
    split at e <;> cases e
    exact .semantic rfl
  · obtain ⟨inner, outer, before, after⟩ := Scopes.levels_declare e
    have settled := known.settled
    rw [before] at settled
    refine ⟨known.lexical, ?_, known.mode, known.computed⟩
    change ∀ scope ∈ scopes.levels, _
    rw [after]
    obtain ⟨first, others⟩ := List.forall_mem_cons.1 settled
    exact List.forall_mem_cons.2 ⟨List.forall_mem_cons.2 ⟨h, first⟩, others⟩

lemma keeps_asConstant {good : α → Prop} {p : Reading ρ α} (h : Keeps (checking ρ true) good p) :
    Keeps (checking ρ false) good (asConstant p) :=
  .inside (fun s => { s with inConstant := true }) (fun s t => { t with inConstant :=
    s.inConstant }) h (fun _ known => ⟨known.lexical, known.settled, rfl, known.computed⟩)
    (fun _ _ known inner => ⟨inner.lexical, inner.settled, known.mode, inner.computed⟩) fun _ => id

lemma keeps_inRoutine {good : α → Prop} {p : Reading ρ α} (id : RoutineId)
    (h : Keeps (checking ρ b) good p) : Keeps (checking ρ b) good (inRoutine id p) := by
  refine .inside (fun s => { s with scopes := s.scopes.push, enclosing := id :: s.enclosing })
    (fun _ t => { t with scopes := t.scopes.pop, enclosing := t.enclosing.tail }) h
    (fun s known => ⟨known.lexical, ?_, known.mode, known.computed⟩)
    (fun _ t _ inner => ⟨inner.lexical, ?_,
    inner.mode, inner.computed⟩) fun _ refused => refused
  · exact List.forall_mem_cons.2 ⟨by simp, known.settled⟩
  · intro scope among
    refine inner.settled scope ?_
    rcases List.mem_append.1 among with nested | program
    · exact List.mem_append_left _ (List.mem_of_mem_tail nested)
    · exact List.mem_append_right _ program

/-! ### Expressions

What is read as a constant is one, and so is what becomes a literal, so that nothing but constants
is computed. -/

section

variable {P : Prop} {e left right : Expr}

lemma keeps_compute (h : e.Constant) :
    Keeps (checking ρ b) (e.constant? = ·) (compute e) := by
  refine Keeps.bind (.modify fun s known => ?_) fun _ _ => .pure rfl
  refine ⟨known.lexical, known.settled, known.mode, fun x among => ?_⟩
  rcases Record.mem_entries among with earlier | rfl
  · exact known.computed x earlier
  · exact h

lemma keeps_fold (op : e.isLiteral = false) (h : P ∨ e.isFoldable → e.Constant) :
    Keeps (checking ρ b)
      (fun e' => e'.Apt P ∧ (e.Constant → e'.Constant) ∧ e'.type = e.type) (fold e) := by
  refine .get fun s _ => .ite (fun folds => ?_) fun _ => .pure ⟨?_, id, rfl⟩
  · have constant := h (.inr folds.2)
    refine (keeps_compute constant).bind fun found same => ?_
    have ended := constant.constant?
    rw [same] at ended
    cases found with
    | ok value =>
      have literal : (Expr.literal value e.type e.span).Constant := .literal ended constant.isArray
      exact .pure ⟨literal.apt, fun _ => literal, rfl⟩
    | error => exact .pure ⟨constant.apt, id, rfl⟩
  · refine fun holds => h (holds.imp_right fun literal => ?_)
    rw [op] at literal
    cases literal

lemma keeps_binary {op : BinaryOp} {operator : Token} (hl : left.Apt P) (hr : right.Apt P) :
    Keeps (checking ρ b) (·.Apt P) (binary op operator left right) := by
  unfold binary
  split
  next type found =>
    have takes := BinaryOp.takes_of_resultType? found
    refine (keeps_fold rfl fun holds => ?_).imp fun _ h => h.1
    rcases holds with holds | foldable
    · exact .binary (hl (.inl holds)) (hr (.inl holds)) takes
    · obtain ⟨literal, literal'⟩ := Bool.and_eq_true_iff.1 foldable
      exact .binary (hl (.inr literal)) (hr (.inr literal')) takes
  next => exact .semantic rfl

lemma keeps_unary {op : UnaryOp} {operator : Token} (h : e.Apt P) :
    Keeps (checking ρ b) (·.Apt P) (unary op operator e) := by
  unfold unary
  split
  next type found =>
    have takes := UnaryOp.takes_of_resultType? found
    exact (keeps_fold rfl fun holds => .unary (h holds) takes).imp fun _ h => h.1
  next => exact .semantic rfl

lemma keeps_coerce (h : e.Apt P) (target : Ty) (span : Span) (destination : Destination) :
    Keeps (checking ρ b) (fun e' => (e.Constant → e'.Constant) ∧ target.sameAs e'.type)
      (coerce e target span destination) := by
  refine .require (.semantic rfl) fun accepts => ?_
  split
  next widens =>
    refine (keeps_fold (P := P) rfl fun holds => .widen (h holds) accepts widens).imp fun e' h => ?_
    obtain ⟨-, constant, same⟩ := h
    refine ⟨fun holds => constant (.widen holds accepts widens), ?_⟩
    rw [same]
    exact (Ty.sameAs_self target).trans (Ty.isData_of_accepts accepts)
  next widens =>
    refine .pure ⟨id, ?_⟩
    rw [Ty.widens_of_accepts_of_not_sameAs accepts] at widens
    simpa using widens

lemma keeps_chain {operator? : Kind → Option BinaryOp} {operand : Reading ρ Expr}
    (h : Keeps (checking ρ b) (·.Apt P) operand) :
    Keeps (checking ρ b) (·.Apt P) (chain operator? operand) := by
  refine h.bind fun first hfirst => .extend (lawful_checking ρ b) (fun left hleft => ?_) hfirst
  refine (Keeps.peek (lawful_checking ρ b)).bind fun operator _ => ?_
  split
  · exact .pure (by simp)
  · refine (Keeps.next (lawful_checking ρ b)).bind fun _ _ => h.bind fun right hright => ?_
    exact (keeps_binary hleft hright).map fun e apt e' same => Option.some.inj same ▸ apt

end

section

variable {term : Reading ρ Expr} (hterm : Keeps (checking ρ b) (·.Apt (b = true)) term)

include hterm

lemma keeps_expressionOf :
    Keeps (checking ρ b) (·.Apt (b = true)) (expressionOf term) :=
  keeps_chain (keeps_chain hterm)

lemma keeps_subscriptOf : Keeps (checking ρ b) (fun _ => True) (subscriptOf term) :=
  (keeps_expressionOf hterm).bind fun _ _ => .require (.semantic rfl) fun _ => .pure trivial

lemma keeps_bracketOf (name : Token) (array : Ty) :
    Keeps (checking ρ b) (fun found => found.isSome → array.isArray)
      (bracketOf term name array) := by
  refine (Keeps.check (lawful_checking ρ b)).bind fun opens _ =>
    .ite (fun _ => ?_) fun _ => .pure nofun
  refine (Keeps.next (lawful_checking ρ b)).bind fun bracket _ => ?_
  cases array with
  | array low high item =>
    refine (keeps_subscriptOf hterm).bind fun index _ => ?_
    exact (Keeps.expect (lawful_checking ρ b)).bind fun close _ => .pure fun _ => rfl
  | _ => exact .semantic rfl

lemma keeps_argumentsOf (head : Token) :
    Keeps (checking ρ b) (fun found => ∀ arg ∈ found.1, arg.Apt (b = true))
      (argumentsOf term head) := by
  have law := lawful_checking ρ b
  refine (Keeps.accept law).bind fun opens _ => .ite (fun _ => ?_) fun _ => .pure (by simp)
  refine (Keeps.check law).bind fun closes _ => ?_
  extract_lets rest
  have closed (args : List Expr) (apt : ∀ arg ∈ args, arg.Apt (b = true)) :
      Keeps (checking ρ b) (fun found => ∀ arg ∈ found.1, arg.Apt (b = true)) (rest args) :=
    (Keeps.expect law).bind fun _ _ => .pure apt
  exact .ite (fun _ => closed [] (by simp)) fun _ =>
    (Keeps.separated law (keeps_expressionOf hterm)).bind closed

lemma keeps_callOf (symbol : Symbol) (name : Token) :
    Keeps (checking ρ b) (fun _ => True) (callOf term symbol name) := by
  unfold callOf
  cases symbol.type
  case function | procedure =>
    refine (keeps_argumentsOf hterm name).bind fun ⟨args, last⟩ apt => ?_
    refine .require (.semantic rfl) fun _ => ?_
    have fits (arg : Expr) (among : arg ∈ args) (type : Ty) (destination : Destination) :
        Keeps (checking ρ b) (fun _ => True) (coerce arg type arg.span destination) :=
      (keeps_coerce (apt arg among) type arg.span destination).imp fun _ _ => trivial
    exact (Keeps.mapM fun item among =>
      fits item.1 (List.of_mem_zip among).1 item.2.2 _).bind fun _ _ => .pure trivial
  all_goals exact .semantic rfl

lemma keeps_valueOf (name : Token) {symbol : Symbol} (settled : symbol.Settled)
    (allowed : b = true → ∃ value, symbol.meaning = .constant value) :
    Keeps (checking ρ b) (·.Apt (b = true)) (valueOf term name symbol) := by
  unfold valueOf
  rcases e : symbol.meaning with value | _ | _ | id | id <;> rw [e] at allowed <;> dsimp only
  case constant =>
    obtain ⟨shaped, single⟩ := settled value e
    exact .pure (Expr.Constant.literal shaped single).apt
  case procedure => exact .semantic rfl
  all_goals have never : ¬ b = true := fun constant => nomatch allowed constant
  case function =>
    split
    · exact (keeps_callOf hterm symbol name).bind fun _ _ => .pure (Expr.apt_of_not never rfl)
    · exact .semantic rfl
  all_goals
    refine (Keeps.check (lawful_checking ρ b)).bind fun opens _ => ?_
    exact .ite (fun _ => .stop (.semantic rfl)) fun _ => .pure (Expr.apt_of_not never rfl)

lemma keeps_indexed (name : Token) {value : Reading ρ Expr}
    (hvalue : Keeps (checking ρ b) (·.Apt (b = true)) value) :
    Keeps (checking ρ b) (·.Apt (b = true)) (do
      let first ← value
      extend (fun array => do
        match ← bracketOf term name array.type with
        | some (step, close) =>
          return some (.index array step.index step.low step.high step.item
            (array.span.through close))
        | none => return none) first) := by
  refine hvalue.bind fun first hfirst => ?_
  refine .extend (lawful_checking ρ b) (fun array harray => ?_) hfirst
  refine (keeps_bracketOf hterm name array.type).bind fun found hfound => ?_
  cases found with
  | none => exact .pure nofun
  | some found =>
    -- a constant is no array, so that no index goes with it
    refine .pure fun e same => Option.some.inj same ▸ Expr.apt_of_not (fun constant => ?_) rfl
    have single := (harray (.inl constant)).isArray
    rw [hfound rfl] at single
    cases single

lemma keeps_nameOf (name : Token) :
    Keeps (checking ρ b) (·.Apt (b = true)) (nameOf term name) := by
  refine (keeps_lookup name).bind fun symbol settled => .get fun s known => ?_
  have value (allowed : b = true → ∃ value, symbol.meaning = .constant value) :=
    keeps_indexed hterm name (keeps_valueOf hterm name settled allowed)
  rw [known.mode]
  split
  next found => exact value fun _ => ⟨_, found⟩
  next => exact value nofun
  next => exact .semantic rfl

lemma keeps_termOf : Keeps (checking ρ b) (·.Apt (b = true)) (termOf term) := by
  have law := lawful_checking ρ b
  have literal {value : Value} {type : Ty} {span : Span} (shaped : value.HasShape type)
      (single : type.isArray = false) :
      Keeps (checking ρ b) (Expr.Apt (b = true)) (pure (.literal value type span)) :=
    .pure (Expr.Constant.literal shaped single).apt
  refine (Keeps.next law).bind fun token _ => ?_
  split
  · split
    · exact literal trivial rfl
    · exact .throw .lexical
  · exact literal trivial rfl
  · exact literal trivial rfl
  · exact literal trivial rfl
  · exact literal trivial rfl
  · exact (keeps_expressionOf hterm).bind fun _ h => keeps_unary h
  · exact hterm.bind fun _ h => keeps_unary h
  · exact hterm.bind fun _ h => keeps_unary h
  · exact (keeps_expressionOf hterm).bind fun _ h => (Keeps.expect law).bind fun _ _ => .pure h
  · exact keeps_nameOf hterm token
  · exact .unexpected law trivial

end

lemma keeps_termWithin :
    ∀ bound, Keeps (checking ρ b) (·.Apt (b = true)) (termWithin bound)
  | 0 => .exhausted (lawful_checking ρ b)
  | bound + 1 => fun s => keeps_termOf (keeps_termWithin bound) s

lemma keeps_term : Keeps (checking ρ b) (·.Apt (b = true)) term :=
  Keeps.budget.bind fun bound _ => keeps_termWithin bound

lemma keeps_expression : Keeps (checking ρ b) (·.Apt (b = true)) expression :=
  keeps_expressionOf keeps_term

lemma keeps_wholeExpression : Keeps (checking ρ b) (·.Apt (b = true)) wholeExpression :=
  keeps_expression.bind fun _ h => (Keeps.expect (lawful_checking ρ b)).bind fun _ _ => .pure h

lemma keeps_constantValue {e : Expr} (h : e.Constant) :
    Keeps (checking ρ b) (fun found => match found with
      | .ok value => value.HasShape e.type
      | .error (fault, span) => fault.IsArithmetic ∧ e.constant? = .error (.fault fault span))
      (constantValue e) := by
  refine (keeps_compute h).bind fun found same => ?_
  have ended := h.constant?
  rw [same] at ended
  rcases found with (⟨fault, span⟩ | _) | value
  · exact .pure ⟨ended, same⟩
  · exact ended.elim
  · exact .pure ended

lemma keeps_constant :
    Keeps (checking ρ false) Expr.Constant (asConstant expression) :=
  keeps_asConstant (keeps_expression.imp fun _ apt => apt (.inl rfl))

/-! ### Statements -/

lemma keeps_assigned (target : Token) (type : Ty) :
    Keeps (checking ρ b) (fun _ => True) (assigned target type) := by
  refine (Keeps.expect (lawful_checking ρ b)).bind fun sign _ => ?_
  refine keeps_expression.bind fun value h => ?_
  exact (keeps_coerce h _ _ _).imp fun _ _ => trivial

lemma keeps_assignment (target : Token) (type : Ty) (slot : String) :
    Keeps (checking ρ b) (fun _ => True) (assignment target type slot) :=
  (keeps_assigned target type).bind fun _ _ => .pure trivial

lemma keeps_path (name : Token) (type : Ty) :
    Keeps (checking ρ b) (fun _ => True) (path name type) := by
  refine .extend (lawful_checking ρ b) (fun ⟨steps, type⟩ _ => ?_) trivial
  refine (keeps_bracketOf keeps_term name type).bind fun found _ => ?_
  cases found with
  | none => exact .pure fun _ _ => trivial
  | some found => exact .pure fun _ _ => trivial

lemma keeps_storing (name : Token) (symbol : Symbol) :
    Keeps (checking ρ b) (fun _ => True) (storing name symbol) := by
  have law := lawful_checking ρ b
  refine (Keeps.check law).bind fun calls _ => .ite (fun _ => .stop (.semantic rfl)) fun _ => ?_
  refine (Keeps.check law).bind fun opens _ => .ite (fun _ => ?_) fun _ => keeps_assignment _ _ _
  refine (keeps_path name symbol.type).bind fun ⟨steps, item⟩ _ => ?_
  exact (keeps_assigned name item).bind fun _ _ => .pure trivial

lemma keeps_setResult (name : Token) (symbol : Symbol) (id : RoutineId) :
    Keeps (checking ρ b) (fun _ => True) (setResult name symbol id) := by
  refine (Keeps.check (lawful_checking ρ b)).bind fun assigns _ =>
    .ite (fun _ => ?_) fun _ => .semantic rfl
  refine .get fun s _ => ?_
  split
  · exact keeps_assignment _ _ _
  · exact .semantic rfl

lemma keeps_nameStatement : Keeps (checking ρ b) (fun _ => True) nameStatement := by
  refine (Keeps.next (lawful_checking ρ b)).bind fun name _ => ?_
  refine (keeps_lookup name).bind fun symbol _ => ?_
  split
  · exact (keeps_callOf keeps_term symbol name).bind fun _ _ => .pure trivial
  · exact keeps_setResult _ _ _
  · exact .semantic rfl
  · exact keeps_storing _ _
  · exact keeps_storing _ _

lemma keeps_condition (word : Kind) : Keeps (checking ρ b) (fun _ => True) (condition word) :=
  keeps_expression.bind fun _ _ => .require (.semantic rfl) fun _ => .pure trivial

lemma keeps_loopVariable : Keeps (checking ρ b) (fun _ => True) loopVariable :=
  (Keeps.expect (lawful_checking ρ b)).bind fun name _ => (keeps_lookup name).bind fun _ _ =>
    .require (.semantic rfl) fun _ => .pure trivial

lemma keeps_loopLimit : Keeps (checking ρ b) (fun _ => True) loopLimit :=
  keeps_expression.bind fun _ _ => .require (.semantic rfl) fun _ => .pure trivial

section

variable {statement : Reading ρ Stmt} (h : Keeps (checking ρ b) (fun _ => True) statement)

include h

lemma keeps_blockOf : Keeps (checking ρ b) (fun _ => True) (blockOf statement) := by
  have law := lawful_checking ρ b
  refine (Keeps.expect law).bind fun _ _ => (Keeps.separated law h).bind fun _ _ => ?_
  exact (Keeps.expect law).bind fun _ _ => .pure trivial

lemma keeps_ifOf : Keeps (checking ρ b) (fun _ => True) (ifOf statement) := by
  have law := lawful_checking ρ b
  refine (Keeps.next law).bind fun _ _ => (keeps_condition .ifWord).bind fun _ _ => ?_
  refine (Keeps.expect law).bind fun _ _ => h.bind fun _ _ => (Keeps.accept law).bind fun _ _ => ?_
  exact .ite (fun _ => h.bind fun _ _ => .pure trivial) fun _ => .pure trivial

lemma keeps_whileOf : Keeps (checking ρ b) (fun _ => True) (whileOf statement) := by
  have law := lawful_checking ρ b
  refine (Keeps.next law).bind fun _ _ => (keeps_condition .whileWord).bind fun _ _ => ?_
  exact (Keeps.expect law).bind fun _ _ => h.bind fun _ _ => .pure trivial

lemma keeps_forOf : Keeps (checking ρ b) (fun _ => True) (forOf statement) := by
  have law := lawful_checking ρ b
  refine (Keeps.next law).bind fun _ _ => keeps_loopVariable.bind fun name _ => ?_
  refine (keeps_assignment name .integer name.lexeme).bind fun _ _ => ?_
  refine (Keeps.expect law).bind fun _ _ => ?_
  refine keeps_loopLimit.bind fun _ _ => (Keeps.expect law).bind fun _ _ => ?_
  exact h.bind fun _ _ => .pure trivial

lemma keeps_statementOf : Keeps (checking ρ b) (fun _ => True) (statementOf statement) := by
  have law := lawful_checking ρ b
  refine (Keeps.peek law).bind fun token _ => ?_
  split
  · exact keeps_blockOf h
  · exact keeps_ifOf h
  · exact keeps_whileOf h
  · exact keeps_forOf h
  · refine (Keeps.next law).bind fun keyword _ => ?_
    exact (keeps_argumentsOf keeps_term keyword).bind fun _ _ => .pure trivial
  · exact keeps_nameStatement
  · exact .pure trivial

end

lemma keeps_statementWithin : ∀ bound, Keeps (checking ρ b) (fun _ => True) (statementWithin bound)
  | 0 => .exhausted (lawful_checking ρ b)
  | bound + 1 => fun s => keeps_statementOf (keeps_statementWithin bound) s

lemma keeps_block : Keeps (checking ρ b) (fun _ => True) block :=
  keeps_blockOf (Keeps.budget.bind fun bound _ => keeps_statementWithin bound)

/-! ### Constants and variables -/

lemma keeps_arrayBound : Keeps (checking ρ false) (fun _ => True) arrayBound := by
  refine keeps_constant.bind fun e constant => .require (.semantic rfl) fun integer => ?_
  refine (keeps_constantValue constant).bind fun found result => ?_
  rcases found with ⟨fault, span⟩ | value
  · exact .throw (.bound ⟨e, fault, constant, integer, result.2, rfl⟩)
  · -- the value of a bound is an integer, since its type is that of integers
    rw [integer] at result
    obtain ⟨n, rfl⟩ := Value.hasShape_integer.1 result
    exact .pure trivial

lemma keeps_typeOf {item : Reading ρ Ty} (h : Keeps (checking ρ false) (fun _ => True) item) :
    Keeps (checking ρ false) (fun _ => True) (typeOf item) := by
  have law := lawful_checking ρ false
  refine (Keeps.next law).bind fun token _ => ?_
  split
  · exact .pure trivial
  · exact .pure trivial
  · exact .pure trivial
  · refine (Keeps.expect law).bind fun _ _ => keeps_arrayBound.bind fun low _ => ?_
    refine (Keeps.expect law).bind fun _ _ => keeps_arrayBound.bind fun high _ => ?_
    refine (Keeps.expect law).bind fun _ _ => (Keeps.expect law).bind fun _ _ => ?_
    refine h.bind fun _ _ => ?_
    exact .ite (fun _ => .stop (.semantic rfl)) fun _ => .pure trivial
  · exact .unexpected law trivial

lemma keeps_typeWithin : ∀ bound, Keeps (checking ρ false) (fun _ => True) (typeWithin bound)
  | 0 => .exhausted (lawful_checking ρ false)
  | bound + 1 => fun s => keeps_typeOf (keeps_typeWithin bound) s

lemma keeps_type : Keeps (checking ρ false) (fun _ => True) type :=
  Keeps.budget.bind fun bound _ => keeps_typeWithin bound

lemma keeps_names : Keeps (checking ρ b) (fun _ => True) names :=
  have law := lawful_checking ρ b
  (Keeps.separated law (Keeps.expect law)).imp fun _ _ => trivial

lemma keeps_constantNames : Keeps (checking ρ b) (fun _ => True) constantNames := by
  have law := lawful_checking ρ b
  refine (Keeps.expect law).bind fun first _ => ?_
  refine (Keeps.many law ?_ (Keeps.expect law)).bind fun _ _ => .pure trivial
  refine (Keeps.accept law).bind fun _ _ => .ite (fun _ => ?_) fun _ => .pure trivial
  exact (Keeps.check law).bind fun _ _ => .pure trivial

lemma keeps_constantGroup : Keeps (checking ρ false) (fun _ => True) constantGroup := by
  have law := lawful_checking ρ false
  refine keeps_constantNames.bind fun group _ => (Keeps.accept law).bind fun typed _ => ?_
  extract_lets rest
  have declared (declared? : Option Ty) : Keeps (checking ρ false) (fun _ => True)
      (rest declared?) := by
    refine (Keeps.expect law).bind fun sign _ => ?_
    refine keeps_constant.bind fun e constant => ?_
    refine (Keeps.expect law).bind fun _ _ => ?_
    extract_lets behind
    have valued (e : Expr) (constant : e.Constant)
        (fits : ∀ declared, declared? = some declared → declared.sameAs e.type) :
        Keeps (checking ρ false) (fun _ => True) (behind e) := by
      refine (keeps_constantValue constant).bind fun found result => ?_
      rcases found with ⟨fault, span⟩ | value
      · exact .fail (.constant result.1)
      · have settled (name : Token) :
            Symbol.Settled ⟨name.lexeme, .constant value, declared?.getD e.type, name.span⟩ := by
          intro value' same
          cases same
          cases declared? with
          | none => exact ⟨result, constant.isArray⟩
          | some declared =>
            have agrees := fits declared rfl
            have single := (Ty.isArray_of_sameAs agrees).trans constant.isArray
            exact ⟨(Value.hasShape_congr agrees).2 result, single⟩
        exact (Keeps.forM fun name _ => keeps_declare (settled name)).bind fun _ _ => .pure trivial
    cases declared? with
    | some declared =>
      refine (keeps_coerce (P := True) constant.apt declared sign.span _).bind fun e h => ?_
      exact valued e (h.1 constant) fun _ same => Option.some.inj same ▸ h.2
    | none => exact valued e constant nofun
  have typed : Keeps (checking ρ false) (fun _ => True) (some <$> type) :=
    keeps_type.map fun _ _ => trivial
  exact .ite (fun _ => typed.bind fun declared? _ => declared declared?) fun _ => declared none

lemma keeps_variableGroup : Keeps (checking ρ false) (fun _ => True) variableGroup := by
  have law := lawful_checking ρ false
  refine keeps_names.bind fun group _ => (Keeps.expect law).bind fun _ _ => ?_
  refine keeps_type.bind fun common _ => (Keeps.expect law).bind fun _ _ => ?_
  refine (Keeps.forM fun name _ => keeps_declare ?_).bind fun _ _ => .pure trivial
  exact Symbol.settled_storage _ _ _

lemma keeps_groups {group : Reading ρ Declarations}
    (h : Keeps (checking ρ b) (fun _ => True) group) :
    Keeps (checking ρ b) (fun _ => True) (groups group) := by
  have law := lawful_checking ρ b
  refine (Keeps.next law).bind fun _ _ => h.bind fun _ _ => ?_
  exact (Keeps.many law (Keeps.check law) h).bind fun _ _ => .pure trivial

/-! ### Routines -/

lemma keeps_parameterGroup : Keeps (checking ρ false) (fun _ => True) parameterGroup := by
  refine keeps_names.bind fun group _ => (Keeps.expect (lawful_checking ρ false)).bind fun _ _ => ?_
  exact keeps_type.bind fun _ _ => .pure trivial

lemma keeps_parameters : Keeps (checking ρ false) (fun _ => True) parameters := by
  have law := lawful_checking ρ false
  refine (Keeps.accept law).bind fun opens _ => .ite (fun _ => ?_) fun _ => .pure trivial
  refine (Keeps.check law).bind fun closes _ => ?_
  extract_lets rest
  have closed (groups : List (List (Token × Ty))) : Keeps (checking ρ false) (fun _ => True)
      (rest groups) :=
    (Keeps.expect law).bind fun _ _ => .pure trivial
  exact .ite (fun _ => closed []) fun _ =>
    (Keeps.separated law keeps_parameterGroup).bind fun groups _ => closed groups

lemma keeps_routineHead : Keeps (checking ρ false) (fun _ => True) routineHead := by
  have law := lawful_checking ρ false
  refine (Keeps.next law).bind fun keyword _ => (Keeps.expect law).bind fun name _ => ?_
  refine keeps_parameters.bind fun params _ => ?_
  extract_lets rest
  have headed (returns : Option Ty) : Keeps (checking ρ false) (fun _ => True) (rest returns) :=
    (Keeps.expect law).bind fun _ _ => .pure trivial
  have typed : Keeps (checking ρ false) (fun _ => True) (some <$> type) :=
    keeps_type.map fun _ _ => trivial
  refine .ite (fun _ => ?_) fun _ => headed none
  exact (Keeps.expect law).bind fun _ _ => typed.bind fun returns _ => headed returns

lemma keeps_enter (routine : Routine) (name : Token) :
    Keeps (checking ρ b) (fun _ => True) (enter routine name) := by
  refine .get fun s _ => ?_
  refine (keeps_declare fun value constant => ?_).bind fun _ _ => ?_
  · split at constant <;> cases constant
  · refine Keeps.bind (.modify fun _ known => ?_) fun _ _ => .pure trivial
    exact ⟨known.lexical, known.settled, known.mode, known.computed⟩

lemma keeps_complete (id : RoutineId) (locals : List (String × Ty)) (body : Stmt) :
    Keeps (checking ρ b) (fun _ => True) (complete id locals body) :=
  .modify fun _ known => ⟨known.lexical, known.settled, known.mode, known.computed⟩

section

variable {routine : Reading ρ Unit} (h : Keeps (checking ρ false) (fun _ => True) routine)

include h

lemma keeps_declarationsOf : Keeps (checking ρ false) (fun _ => True) (declarationsOf routine) := by
  have law := lawful_checking ρ false
  refine (Keeps.many law ?_ (?_ : Keeps _ (fun _ => True) _)).map fun _ _ => trivial
  · refine (Keeps.peek law).bind fun token _ => ?_
    split <;> exact .pure trivial
  · refine (Keeps.peek law).bind fun token _ => ?_
    split
    · exact keeps_groups keeps_constantGroup
    · exact keeps_groups keeps_variableGroup
    · exact h.bind fun _ _ => .pure trivial

lemma keeps_bodyOf (params : List (Token × Ty)) :
    Keeps (checking ρ false) (fun _ => True) (bodyOf routine params) := by
  refine Keeps.bind (.forM fun param _ => ?_) fun _ _ => ?_
  · exact keeps_declare (Symbol.settled_storage _ _ _)
  · exact (keeps_declarationsOf h).bind fun _ _ => keeps_block.bind fun _ _ => .pure trivial

lemma keeps_routineOf : Keeps (checking ρ false) (fun _ => True) (routineOf routine) := by
  refine keeps_routineHead.bind fun ⟨head, name, params⟩ _ => ?_
  refine (keeps_enter head name).bind fun id _ => ?_
  refine (keeps_inRoutine id (keeps_bodyOf h params)).bind fun ⟨locals, body⟩ _ => ?_
  exact (Keeps.expect (lawful_checking ρ false)).bind fun _ _ => keeps_complete id locals body

end

lemma keeps_routineWithin : ∀ bound, Keeps (checking ρ false) (fun _ => True) (routineWithin bound)
  | 0 => .exhausted (lawful_checking ρ false)
  | bound + 1 => fun s => keeps_routineOf (keeps_routineWithin bound) s

lemma keeps_routine : Keeps (checking ρ false) (fun _ => True) routine :=
  Keeps.budget.bind fun bound _ => keeps_routineWithin bound

/-! ### Programs -/

lemma keeps_program : Keeps (checking ρ false) (fun _ => True) program := by
  have law := lawful_checking ρ false
  refine (Keeps.expect law).bind fun _ _ => (Keeps.expect law).bind fun name _ => ?_
  refine (Keeps.expect law).bind fun _ _ => (keeps_declarationsOf keeps_routine).bind fun _ _ => ?_
  refine keeps_block.bind fun _ _ => ?_
  refine (Keeps.expect law).bind fun _ _ => (Keeps.expect law).bind fun _ _ => ?_
  refine .get fun s _ => ?_
  refine Keeps.bind (.modify fun _ known => ?_) fun _ _ => .pure trivial
  exact ⟨known.lexical, known.settled, known.mode, known.computed⟩

end Parse

/-! ### The tokens of a text -/

lemma lexical_ofCursor (cursor : Cursor) {d : Diagnostic}
    (h : .error d ∈ (Tokens.ofCursor cursor).items) : d.fault.phase = .lexical := by
  fun_induction Tokens.ofCursor cursor with
  | case1 => cases h
  | case2 cursor more tokens ih =>
    rcases List.mem_cons.1 h with first | later
    · unfold Cursor.next at first
      dsimp only at first
      split at first <;> cases first
      rfl
    · exact ih later

lemma checking_ofText (text : String) : Checking false (.ofText text true) :=
  ⟨fun _ => lexical_ofCursor _, by simp [ParseState.ofText, Scopes.levels, Scopes.empty], rfl,
    List.forall_mem_nil _⟩

namespace Program

/-- **The phases of faults.** A check that fails refuses the text, and then nothing of it is run;
its fault belongs to running only if it is the overflow, or the division by zero, of a constant that
bounds an array. A text that passes the check fails with faults of running only. -/
theorem phases (text : String) (bound : Nat) :
    (∀ d, ofText text = .error d → interpret text bound = ⟨#[], .failed d⟩ ∧
      (d.fault.phase = .runtime →
        d.IsBound ∧ ∃ fault, d.fault = .runtime fault ∧ fault.IsArithmetic)) ∧
    ∀ program d, ofText text = .ok program → (interpret text bound).ending = .failed d →
      d.fault.phase = .runtime := by
  constructor
  · intro d refused
    constructor
    · unfold interpret
      rw [refused]
    · intro running
      have suits := (Parse.keeps_program _ (checking_ofText text)).2
      unfold ofText at refused
      rw [refused] at suits
      obtain ⟨e, fault, constant, integer, found, is⟩ := suits.isBound running
      have ended := constant.constant?
      rw [found] at ended
      exact ⟨⟨e, fault, constant, integer, found, is⟩, fault, is, ended⟩
  · intro program d accepted failed
    unfold interpret at failed
    rw [accepted] at failed
    dsimp only at failed
    rcases run : program.run bound with ⟨(⟨fault, span⟩ | _) | _, machine⟩ <;>
      rw [run] at failed <;> cases failed
    rfl

/-- What the check of a text finds wrong with it. -/
def fault? (text : String) : Option Fault :=
  match ofText text with
  | .ok _ => none
  | .error d => some d.fault

/-- The check does not keep to faults of its own: the failure of a bound comes through as it is. -/
theorem fault?_bound : fault? "program P; var a: Array[1 div 0..3] of Integer; begin end." =
    some (.runtime .divisionByZero) := by
  decide +kernel

end Program

end SmallPascal
