import SmallPascal.Proofs.Computing
import SmallPascal.Proofs.Discipline
import SmallPascal.Proofs.Reading

/-! Reading expressions: every expression that a reader answers is well typed by what the names in
scope stand for. The checks on types are made one by one while an expression is put together, and
here each of them is matched with the premise of the judgement that it makes good. -/

namespace SmallPascal

/-- What the symbol stands for can be seen. -/
def Symbol.Seen (sight : Sight) (symbol : Symbol) : Prop :=
  match symbol.meaning with
  | .constant value => value.HasShape symbol.type ∧ symbol.type.isData
  | .var | .array => sight.place symbol.name symbol.type
  | .function id => ∃ params returns, symbol.type = .function params returns ∧
    sight.callee id ⟨symbol.name, params, some returns⟩
  | .procedure id => ∃ params, symbol.type = .procedure params ∧
    sight.callee id ⟨symbol.name, params, none⟩

structure Sees (sight : Sight) (s : ParseState) : Prop where
  data : sight.Data
  names : ∀ name symbol, s.scopes.resolve name = some symbol → symbol.name = name ∧
    symbol.Seen sight
  result : ∀ id signature, s.enclosing.head? = some id → sight.callee id signature →
    sight.result = signature.returns

/-- Reading on does not change what names stand for. -/
def Sight.known (sight : Sight) : Parse.Knowledge where
  holds := Sees sight
  stays sees on :=
    ⟨sees.data, by rw [on.scopes]; exact sees.names, by rw [on.enclosing]; exact sees.result⟩

lemma Expr.WellTyped.folded {sight : Sight} (data : sight.Data) {e : Expr} (h : e.WellTyped sight) :
    e.folded.WellTyped sight ∧ e.folded.type = e.type := by
  unfold Expr.folded
  split
  · split
    next value found =>
      exact ⟨.literal (Discipline.hasShape_constant? data h found) (h.isData data), rfl⟩
    next => exact ⟨h, rfl⟩
  · exact ⟨h, rfl⟩

lemma agree_of_zip {sight : Sight} {args : List Expr} {params : Params}
    (length : args.length = params.length) {fitted : List Expr}
    (h : List.Forall₂
      (fun (pair : Expr × String × Ty) e => e.WellTyped sight ∧ pair.2.2.sameAs e.type)
      (args.zip params) fitted) :
    (∀ e ∈ fitted, e.WellTyped sight) ∧ Agree fitted params := by
  induction args generalizing params fitted with
  | nil =>
    obtain rfl : params = [] := List.length_eq_zero_iff.1 length.symm
    cases h
    exact ⟨by simp, .nil⟩
  | cons arg args ih =>
    rcases params with _ | ⟨param, params⟩
    · cases length
    · obtain _ | ⟨⟨typed, same⟩, others⟩ := h
      obtain ⟨all, agree⟩ := ih (Nat.succ.inj length) others
      exact ⟨List.forall_mem_cons.2 ⟨typed, all⟩, .cons same agree⟩

namespace Parse

variable {sight : Sight}

lemma reads_lookup (name : Token) :
    Reads sight.known (fun symbol => symbol.name = name.lexeme ∧ symbol.Seen sight)
      (lookup name) := by
  intro s symbol t sees h
  obtain ⟨rfl, found⟩ := lookup_eq_ok h
  exact ⟨.refl s, sees.names _ _ found⟩

/-! ### Operations -/

lemma reads_fold {e : Expr} (h : e.WellTyped sight) :
    Reads sight.known (fun e' => e'.WellTyped sight ∧ e'.type = e.type) (fold e) := by
  rw [fold_eq]
  refine .get fun s sees => .pure ?_
  split
  · exact h.folded sees.data
  · exact ⟨h, rfl⟩

lemma reads_binary {op : BinaryOp} {operator : Token} {left right : Expr}
    (hl : left.WellTyped sight) (hr : right.WellTyped sight) :
    Reads sight.known (·.WellTyped sight) (binary op operator left right) := by
  unfold binary
  split
  next type e =>
    exact (reads_fold (.binary hl hr (BinaryOp.takes_of_resultType? e))).imp fun _ => And.left
  next => exact .fail

lemma reads_unary {op : UnaryOp} {operator : Token} {operand : Expr} (h : operand.WellTyped sight) :
    Reads sight.known (·.WellTyped sight) (unary op operator operand) := by
  unfold unary
  split
  next type e => exact (reads_fold (.unary h (UnaryOp.takes_of_resultType? e))).imp fun _ =>
    And.left
  next => exact .fail

lemma reads_coerce {e : Expr} (h : e.WellTyped sight) (target : Ty) (span : Span)
    (destination : Destination) :
    Reads sight.known (fun e' => e'.WellTyped sight ∧ target.sameAs e'.type)
      (coerce e target span destination) := by
  refine .require .fail fun accepts => ?_
  split
  next widens =>
    refine (reads_fold (.widen h accepts widens)).imp fun e' ⟨typed, same⟩ => ⟨typed, ?_⟩
    rw [same]
    exact (Ty.sameAs_self target).trans (Ty.isData_of_accepts accepts)
  next widens =>
    -- what is accepted as it is agrees
    refine .pure ⟨h, ?_⟩
    rw [Ty.widens_of_accepts_of_not_sameAs accepts] at widens
    simpa using widens

lemma reads_chain {operator? : Kind → Option BinaryOp} {operand : Parse Expr}
    (h : Reads sight.known (·.WellTyped sight) operand) :
    Reads sight.known (·.WellTyped sight) (chain operator? operand) := by
  refine h.bind fun first hfirst => .extend (fun left hleft => ?_) hfirst
  refine Reads.peek.bind fun operator _ => ?_
  split
  · exact .pure (by simp)
  · refine Reads.next.bind fun _ _ => h.bind fun right hright => ?_
    exact (reads_binary hleft hright).map fun e typed b same => Option.some.inj same ▸ typed

/-! ### Terms -/

lemma callOf_eq {ρ : Type} [Record ρ] {term : Reading ρ Expr} (symbol : Symbol) (name : Token)
    {params : Params}
    (callable : (∃ returns, symbol.type = .function params returns) ∨
      symbol.type = .procedure params) :
    callOf term symbol name = do
      let (args, last) ← argumentsOf term name
      let span := name.span.through last
      unless args.length = params.length do
        fail (.arity name.lexeme symbol.type params.length args.length) span
      let args ← (args.zip params).mapM fun (arg, param, type) =>
        coerce arg type arg.span (.argument param name.lexeme)
      return (args, span) := by
  unfold callOf
  rcases callable with ⟨returns, e⟩ | e <;> rw [e]

section

variable {term : Parse Expr} (hterm : Reads sight.known (·.WellTyped sight) term)

include hterm

lemma reads_expressionOf : Reads sight.known (·.WellTyped sight) (expressionOf term) :=
  reads_chain (reads_chain hterm)

lemma reads_subscriptOf :
    Reads sight.known (fun e => e.WellTyped sight ∧ e.type = .integer) (subscriptOf term) :=
  (reads_expressionOf hterm).bind fun _ typed => .require .fail fun integer =>
    .pure ⟨typed, integer⟩

lemma reads_bracketOf (name : Token) (array : Ty) :
    Reads sight.known (fun found => ∀ step close, found = some (step, close) →
      array = .array step.low step.high step.item ∧ step.index.WellTyped sight ∧
      step.index.type = .integer) (bracketOf term name array) := by
  refine Reads.check.bind fun opens _ => ?_
  cases opens with
  | false => exact .pure nofun
  | true =>
    refine Reads.next.bind fun bracket _ => ?_
    cases array with
    | array low high item =>
      refine (reads_subscriptOf hterm).bind fun index ⟨typed, integer⟩ => ?_
      refine Reads.expect.bind fun close _ => .pure fun step close same => ?_
      obtain ⟨rfl, -⟩ := Prod.mk.inj (Option.some.inj same)
      exact ⟨rfl, typed, integer⟩
    | _ => exact .fail

lemma reads_argumentsOf (head : Token) :
    Reads sight.known (fun found => ∀ arg ∈ found.1, arg.WellTyped sight)
      (argumentsOf term head) := by
  refine Reads.accept.bind fun opens _ => ?_
  cases opens with
  | false => exact .pure (by simp)
  | true =>
    refine Reads.check.bind fun closes _ => ?_
    have close {args : List Expr} (typed : ∀ arg ∈ args, arg.WellTyped sight) :
        Reads sight.known (fun found => ∀ arg ∈ found.1, arg.WellTyped sight)
          (do let last ← expect .rightParen; return (args, last.span)) :=
      Reads.expect.bind fun _ _ => .pure typed
    cases closes with
    | true => exact close (by simp)
    | false => exact (Reads.separated (reads_expressionOf hterm)).bind fun _ typed => close typed

lemma reads_callOf (symbol : Symbol) (name : Token) {params : Params}
    (callable : (∃ returns, symbol.type = .function params returns) ∨
      symbol.type = .procedure params) :
    Reads sight.known (fun found => (∀ arg ∈ found.1, arg.WellTyped sight) ∧ Agree found.1 params)
      (callOf term symbol name) := by
  rw [callOf_eq symbol name callable]
  refine (reads_argumentsOf hterm name).bind fun ⟨args, last⟩ typed => ?_
  refine .require .fail fun length => ?_
  refine (Reads.mapM fun pair among => ?_).bind fun fitted hfitted =>
    .pure (agree_of_zip length hfitted)
  exact reads_coerce (typed _ (List.of_mem_zip among).1) _ _ _

lemma reads_valueOf (name : Token) {symbol : Symbol} (named : symbol.name = name.lexeme)
    (seen : symbol.Seen sight) :
    Reads sight.known (·.WellTyped sight) (valueOf term name symbol) := by
  unfold valueOf
  unfold Symbol.Seen at seen
  rcases e : symbol.meaning with value | _ | _ | id | id <;> rw [e] at seen <;> dsimp only at seen ⊢
  · exact .pure (.literal seen.1 seen.2)
  · refine Reads.check.bind fun opens _ => ?_
    cases opens with
    | true => exact .fail
    | false => exact .pure (.var (named ▸ seen))
  · refine Reads.check.bind fun opens _ => ?_
    cases opens with
    | true => exact .fail
    | false => exact .pure (.var (named ▸ seen))
  · obtain ⟨params, returns, type, seen⟩ := seen
    rw [type]
    have called := reads_callOf hterm symbol name (.inl ⟨returns, type⟩)
    refine called.bind fun found ⟨typed, agree⟩ => ?_
    exact .pure (.call (named ▸ seen) typed agree)
  · exact .fail

lemma reads_indexed (name : Token) {value : Parse Expr}
    (hvalue : Reads sight.known (·.WellTyped sight) value) :
    Reads sight.known (·.WellTyped sight) (do
      let first ← value
      extend (fun array => do
        match ← bracketOf term name array.type with
        | some (step, close) =>
          return some
            (.index array step.index step.low step.high step.item (array.span.through close))
        | none => return none) first) := by
  refine hvalue.bind fun first hfirst => ?_
  refine .extend (fun array harray => ?_) hfirst
  refine (reads_bracketOf hterm name array.type).bind fun found hfound => ?_
  cases found with
  | none => exact .pure nofun
  | some found =>
    obtain ⟨type, typed, integer⟩ := hfound _ _ rfl
    exact .pure fun b same => Option.some.inj same ▸ .index harray typed type integer

lemma reads_nameOf (name : Token) : Reads sight.known (·.WellTyped sight) (nameOf term name) := by
  refine (reads_lookup name).bind fun symbol ⟨named, seen⟩ => ?_
  refine .get fun s _ => ?_
  have value := reads_indexed hterm name (reads_valueOf hterm name named seen)
  split
  · exact value
  · exact value
  · exact .fail

lemma reads_termOf : Reads sight.known (·.WellTyped sight) (termOf term) := by
  refine Reads.next.bind fun token _ => ?_
  split
  · split
    · exact .pure (.literal trivial rfl)
    · exact .throw
  · exact .pure (.literal trivial rfl)
  · exact .pure (.literal trivial rfl)
  · exact .pure (.literal trivial rfl)
  · exact .pure (.literal trivial rfl)
  · exact (reads_expressionOf hterm).bind fun _ typed => reads_unary typed
  · exact hterm.bind fun _ typed => reads_unary typed
  · exact hterm.bind fun _ typed => reads_unary typed
  · exact (reads_expressionOf hterm).bind fun _ typed => Reads.expect.bind fun _ _ => .pure typed
  · exact reads_nameOf hterm token
  · exact .unexpected

end

lemma reads_termWithin : ∀ bound, Reads sight.known (·.WellTyped sight) (termWithin bound)
  | 0 => .exhausted
  | bound + 1 => fun s => reads_termOf (reads_termWithin bound) s

lemma reads_term : Reads sight.known (·.WellTyped sight) term :=
  Reads.budget.bind fun bound _ => reads_termWithin bound

/-- **Expressions that are read are well typed.** -/
theorem reads_expression : Reads sight.known (·.WellTyped sight) expression :=
  reads_expressionOf reads_term

end Parse

end SmallPascal
