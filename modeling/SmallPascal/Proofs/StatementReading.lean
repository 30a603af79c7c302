import SmallPascal.Parse.Statement
import SmallPascal.Proofs.ExpressionReading

/-!
Reading statements: every statement that a reader answers is well typed by what can be seen from the
part of the program that it stands in.
-/

namespace SmallPascal

open Steps

variable {sight : Sight}

lemma PathTyped.snoc {type last item : Ty} {low high : Integer} {index : Expr}
    {path : List IndexStep}
    (h : PathTyped sight type path last) (array : last = .array low high item)
    (typed : index.WellTyped sight) (integer : index.type = .integer) :
    PathTyped sight type (path ++ [⟨index, low, high, item⟩]) item := by
  induction h with
  | here => subst array; exact .into typed integer .here
  | into first whole _ ih => exact .into first whole (ih array)

namespace Parse

/-! ### Assignments -/

lemma reads_assigned (target : Token) (type : Ty) :
    Reads sight.known (fun e => e.WellTyped sight ∧ type.sameAs e.type) (assigned target type) :=
  Reads.expect.bind fun _ _ => reads_expression.bind fun _ typed => reads_coerce typed _ _ _

lemma reads_assignment (target : Token) (type : Ty) (slot : String) :
    Reads sight.known (fun s => ∃ value span, s = .assign slot value span ∧ value.WellTyped sight ∧
      type.sameAs value.type) (assignment target type slot) :=
  (reads_assigned target type).bind fun value h => .pure ⟨value, _, rfl, h⟩

lemma reads_path (name : Token) (type : Ty) :
    Reads sight.known (fun found => PathTyped sight type found.1 found.2) (path name type) := by
  refine .extend (fun ⟨steps, last⟩ typed => ?_) PathTyped.here
  refine (reads_bracketOf reads_term name last).bind fun found hfound => ?_
  cases found with
  | none => exact .pure nofun
  | some found =>
    obtain ⟨array, index, integer⟩ := hfound _ _ rfl
    exact .pure fun b same => Option.some.inj same ▸ typed.snoc array index integer

lemma path_keeps_ne_nil {name : Token} {bound : Nat} {found reached : List IndexStep × Ty}
    {s t : ParseState} (h : extendWithin (fun (steps, type) => do
      match ← bracketOf term name type with
      | some (step, _) => return some (steps ++ [step], step.item)
      | none => return none) bound found s = (.ok reached, t)) (nonempty : found.1 ≠ []) :
    reached.1 ≠ [] := by
  let P (found : List IndexStep × Ty) (_ : ParseState) : Prop := found.1 ≠ []
  refine extendWithin_keeps (P := P) (fun found s more? t kept tried => ?_) nonempty h
  obtain ⟨bracket, _, -, tried⟩ := bind_eq_ok.1 tried
  cases bracket <;> obtain ⟨rfl, -⟩ := pure_eq_ok.1 tried
  · exact kept
  · exact List.append_ne_nil_of_right_ne_nil _ (List.cons_ne_nil _ _)

lemma path_ne_nil {name : Token} {type : Ty} {s t : ParseState} {found : List IndexStep × Ty}
    (opens : check .leftBracket s = (.ok true, s)) (h : path name type s = (.ok found, t)) :
    found.1 ≠ [] := by
  obtain ⟨n, s₁, counted, h⟩ := bind_eq_ok.1 h
  obtain ⟨_, _, got, counted⟩ := bind_eq_ok.1 counted
  obtain ⟨rfl, rfl⟩ := get_eq_ok.1 got
  obtain ⟨rfl, rfl⟩ := pure_eq_ok.1 counted
  obtain ⟨more?, s₂, tried, h⟩ := bind_eq_ok.1 h
  obtain ⟨bracket, s₃, read, tried⟩ := bind_eq_ok.1 tried
  obtain ⟨seen, s₄, checked, read⟩ := bind_eq_ok.1 read
  rw [opens] at checked
  cases checked
  obtain ⟨open?, s₅, -, read⟩ := bind_eq_ok.1 read
  cases type <;> try exact absurd read fail_ne_ok
  obtain ⟨index, s₆, -, read⟩ := bind_eq_ok.1 read
  obtain ⟨close, s₇, -, read⟩ := bind_eq_ok.1 read
  obtain ⟨rfl, -⟩ := pure_eq_ok.1 read
  obtain ⟨rfl, -⟩ := pure_eq_ok.1 tried
  exact path_keeps_ne_nil h (List.cons_ne_nil _ _)

lemma reads_storing (name : Token) {symbol : Symbol} (seen : sight.place name.lexeme symbol.type) :
    Reads sight.known (·.WellTyped sight) (storing name symbol) := by
  refine Reads.check.bind fun calls _ => ?_
  cases calls with
  | true => exact .fail
  | false =>
    intro s stmt u sees h
    obtain ⟨opens, s₁, checked, h⟩ := bind_eq_ok.1 h
    obtain rfl := check_eq_ok checked
    cases opens with
    | true =>
      obtain ⟨⟨steps, item⟩, t, read, h⟩ := bind_eq_ok.1 h
      obtain ⟨on, typed⟩ := reads_path name symbol.type s _ _ sees read
      have nonempty := path_ne_nil checked read
      obtain ⟨value, t₁, valued, h⟩ := bind_eq_ok.1 h
      obtain ⟨on₁, hvalue, agree⟩ :=
        reads_assigned name item t _ _ (sight.known.stays sees on) valued
      obtain ⟨rfl, rfl⟩ := pure_eq_ok.1 h
      exact ⟨on.trans on₁, .assignElement seen nonempty typed hvalue agree⟩
    | false =>
      obtain ⟨on, value, span, rfl, typed, agree⟩ :=
        reads_assignment name symbol.type name.lexeme s _ _ sees h
      exact ⟨on, .assign seen typed agree⟩

lemma reads_setResult (name : Token) {symbol : Symbol} {id : RoutineId} {params : Params}
    {returns : Ty} (type : symbol.type = .function params returns)
    (seen : sight.callee id ⟨symbol.name, params, some returns⟩) :
    Reads sight.known (·.WellTyped sight) (setResult name symbol id) := by
  refine Reads.check.bind fun assigns _ => ?_
  cases assigns with
  | false => exact .fail
  | true =>
    refine .get fun s sees => ?_
    rw [type]
    rcases e : s.enclosing.head? == some id with _ | _
    · exact .fail
    · have result := sees.result id _ (by simpa using e) seen
      refine (reads_assignment name returns resultSlot).imp ?_
      rintro _ ⟨value, span, rfl, typed, agree⟩
      exact .result result typed agree

lemma reads_nameStatement : Reads sight.known (·.WellTyped sight) nameStatement := by
  refine Reads.next.bind fun name _ => (reads_lookup name).bind fun symbol ⟨named, seen⟩ => ?_
  unfold Symbol.Seen at seen
  rcases e : symbol.meaning with value | _ | _ | id | id <;> rw [e] at seen <;> dsimp only at seen ⊢
  · exact .fail
  · exact reads_storing name (named ▸ seen)
  · exact reads_storing name (named ▸ seen)
  · obtain ⟨params, returns, type, seen⟩ := seen
    exact reads_setResult name type seen
  · obtain ⟨params, type, seen⟩ := seen
    refine (reads_callOf reads_term symbol name (.inr type)).bind fun found ⟨typed, agree⟩ => ?_
    exact .pure (.call (named ▸ seen) typed agree)

/-! ### Conditions and counters -/

lemma reads_condition (word : Kind) :
    Reads sight.known (fun e => e.WellTyped sight ∧ e.type = .boolean) (condition word) :=
  reads_expression.bind fun _ typed => .require .fail fun boolean => .pure ⟨typed, boolean⟩

lemma reads_loopVariable :
    Reads sight.known (fun name => sight.place name.lexeme .integer) loopVariable := by
  refine Reads.expect.bind fun name _ => (reads_lookup name).bind fun symbol ⟨named, seen⟩ => ?_
  refine .require .fail fun ⟨var, integer⟩ => .pure ?_
  unfold Symbol.Seen at seen
  rw [var, named, integer] at seen
  exact seen

lemma reads_loopLimit :
    Reads sight.known (fun e => e.WellTyped sight ∧ e.type = .integer) loopLimit :=
  reads_expression.bind fun _ typed => .require .fail fun integer => .pure ⟨typed, integer⟩

lemma reads_writelnStatement : Reads sight.known (·.WellTyped sight) writelnStatement :=
  Reads.next.bind fun keyword _ => (reads_argumentsOf reads_term keyword).bind fun _ typed =>
    .pure (.writeln typed)

/-! ### Statements -/

section

variable {statement : Parse Stmt} (hstatement : Reads sight.known (·.WellTyped sight) statement)

include hstatement

lemma reads_blockOf : Reads sight.known (·.WellTyped sight) (blockOf statement) :=
  Reads.expect.bind fun _ _ => (Reads.separated hstatement).bind fun _ typed =>
    Reads.expect.bind fun _ _ => .pure (.block typed)

lemma reads_ifOf : Reads sight.known (·.WellTyped sight) (ifOf statement) := by
  refine Reads.next.bind fun _ _ => (reads_condition .ifWord).bind fun test ⟨typed, boolean⟩ => ?_
  refine Reads.expect.bind fun _ _ => hstatement.bind fun yes hyes => ?_
  refine Reads.accept.bind fun alternative _ => ?_
  cases alternative with
  | true => exact hstatement.bind fun no hno => .pure (.ifThenElse typed boolean hyes hno)
  | false => exact .pure (.ifThen typed boolean hyes)

lemma reads_whileOf : Reads sight.known (·.WellTyped sight) (whileOf statement) := by
  refine Reads.next.bind fun _ _ => ?_
  refine (reads_condition .whileWord).bind fun test ⟨typed, boolean⟩ => ?_
  exact Reads.expect.bind fun _ _ => hstatement.bind fun body hbody =>
    .pure (.whileDo typed boolean hbody)

lemma reads_forOf : Reads sight.known (·.WellTyped sight) (forOf statement) := by
  refine Reads.next.bind fun _ _ => reads_loopVariable.bind fun name seen => ?_
  refine (reads_assignment name .integer name.lexeme).bind fun start hstart => ?_
  obtain ⟨value, span, rfl, typed, agree⟩ := hstart
  refine Reads.expect.bind fun _ _ => reads_loopLimit.bind fun limit ⟨hlimit, integer⟩ => ?_
  exact Reads.expect.bind fun _ _ => hstatement.bind fun body hbody =>
    .pure (.forTo seen (.assign seen typed agree) hlimit integer hbody)

lemma reads_statementOf : Reads sight.known (·.WellTyped sight) (statementOf statement) := by
  refine Reads.peek.bind fun token _ => ?_
  split
  · exact reads_blockOf hstatement
  · exact reads_ifOf hstatement
  · exact reads_whileOf hstatement
  · exact reads_forOf hstatement
  · exact reads_writelnStatement
  · exact reads_nameStatement
  · exact .pure .skip

end

lemma reads_statementWithin : ∀ bound, Reads sight.known (·.WellTyped sight) (statementWithin bound)
  | 0 => .exhausted
  | bound + 1 => fun s => reads_statementOf (reads_statementWithin bound) s

lemma reads_statement : Reads sight.known (·.WellTyped sight) statement :=
  Reads.budget.bind fun bound _ => reads_statementWithin bound

/-- **Blocks that are read are well typed.** -/
theorem reads_block : Reads sight.known (·.WellTyped sight) block := reads_blockOf reads_statement

end Parse

end SmallPascal
