import SmallPascal.Proofs.Nodes
import SmallPascal.Proofs.RecastRunning
import SmallPascal.Proofs.RecastSyntax
import SmallPascal.Proofs.Safety
import SmallPascal.Proofs.Scanning

/-!
Layout has no meaning. Blanks, line breaks and comments only decide where things stand, and a
program in which all places are forgotten is read and runs as before.
-/

namespace SmallPascal

open Steps

namespace Expr

mutual

def placeless : Expr → Expr
  | .literal value type _ => .literal value type .nowhere
  | .var name type _ => .var name type .nowhere
  | .widen operand type _ => .widen operand.placeless type .nowhere
  | .binary op left right type _ => .binary op left.placeless right.placeless type .nowhere
  | .unary op operand type _ => .unary op operand.placeless type .nowhere
  | .index array subscript low high item _ =>
    .index array.placeless subscript.placeless low high item .nowhere
  | .call id name args type _ => .call id name (placelessAll args) type .nowhere

def placelessAll : List Expr → List Expr
  | [] => []
  | e :: rest => e.placeless :: placelessAll rest

end

lemma placelessAll_eq_map (es : List Expr) : placelessAll es = es.map placeless := by
  induction es with
  | nil => rfl
  | cons e rest ih => rw [placelessAll, ih, List.map_cons]

lemma type_placeless (e : Expr) : e.placeless.type = e.type := by cases e <;> rw [placeless] <;> rfl

lemma span_placeless (e : Expr) :
    e.placeless.span = .nowhere := by cases e <;> rw [placeless] <;> rfl

lemma isLiteral_placeless (e : Expr) : e.placeless.isLiteral = e.isLiteral := by
  cases e <;> rw [placeless] <;> rfl

lemma isFoldable_placeless (e : Expr) : e.placeless.isFoldable = e.isFoldable := by
  cases e <;> simp only [placeless, isFoldable, isLiteral_placeless]

end Expr

namespace Recast

def placeless : Recast := ⟨fun _ => .nowhere, Expr.placeless, true, true⟩

section

variable {c d : Context} (store : Store)

mutual

theorem eval_placeless (carries : placeless.Carries c d) (e : Expr) :
    e.placeless.eval d store = (e.eval c store).adapt placeless.stop := by
  have step {α : Type} (span : Span) (step : Except RuntimeFault α) :
      (Eval.ofExcept span step).adapt placeless.stop = Eval.ofExcept .nowhere step :=
    adapt_ofExcept span step
  match e with
  | .literal .. =>
    rw [Expr.placeless]
    rfl
  | .var name _ _ =>
    rw [Expr.placeless, Expr.eval, Expr.eval]
    cases store.get? name <;> rfl
  | .widen operand _ _ =>
    simp only [Expr.placeless, Expr.eval, adapt_bind, eval_placeless carries operand]
    rfl
  | .binary _ left right _ _ =>
    simp only [Expr.placeless, Expr.eval, adapt_bind, step, eval_placeless carries left,
      eval_placeless carries right]
  | .unary _ operand _ _ =>
    simp only [Expr.placeless, Expr.eval, adapt_bind, step, eval_placeless carries operand]
  | .index array subscript _ _ _ _ =>
    simp only [Expr.placeless, Expr.eval, adapt_bind, step, Expr.span_placeless,
      eval_placeless carries array, eval_placeless carries subscript]
  | .call id _ args _ _ =>
    simp only [Expr.placeless, Expr.eval, carries.routines, List.getElem?_map]
    cases c.routines[id]? with
    | none => rfl
    | some routine =>
      simp only [Option.map_some, adapt_bind, evalAll_placelessAll carries args, carries.run]
      refine congrArg _ (funext fun values => congrArg _ (funext fun result => ?_))
      cases result <;> rfl

theorem evalAll_placelessAll (carries : placeless.Carries c d) (args : List Expr) :
    Expr.evalAll d store (Expr.placelessAll args) =
    (Expr.evalAll c store args).adapt placeless.stop := by
  match args with
  | [] => rfl
  | e :: rest =>
    simp only [Expr.placelessAll, Expr.evalAll, adapt_bind, eval_placeless carries e,
      evalAll_placelessAll carries rest]
    rfl

end

end

lemma folded_placeless (e : Expr) : e.placeless.folded = e.folded.placeless := by
  have carries : placeless.Carries .empty .empty := ⟨rfl, fun _ _ _ => rfl⟩
  have constant : e.placeless.constant? = e.constant?.mapError placeless.stop := by
    unfold Expr.constant?
    rw [eval_placeless _ carries]
    rfl
  unfold Expr.folded
  rw [Expr.isFoldable_placeless, constant, apply_ite Expr.placeless]
  refine if_congr Iff.rfl ?_ rfl
  cases e.constant? with
  | error => rfl
  | ok value =>
    change Expr.literal value e.placeless.type e.placeless.span =
      (Expr.literal value e.type e.span).placeless
    rw [Expr.type_placeless, Expr.span_placeless, Expr.placeless]

lemma lawful_placeless : placeless.Lawful where
  through _ _ := rfl
  type := Expr.type_placeless
  place := Expr.span_placeless
  literal _ _ _ := rfl
  var _ _ _ := rfl
  index _ _ _ _ _ _ := rfl
  call id name _ type _ :=
    congrArg (fun args => Expr.call id name args type .nowhere) (Expr.placelessAll_eq_map _)
  widen operand type span := (folded_placeless (.widen operand type span)).symm
  binary op left right type span := (folded_placeless (.binary op left right type span)).symm
  unary op operand type span := (folded_placeless (.unary op operand type span)).symm
  eval carries store e := eval_placeless store carries e

end Recast

/-! ### Texts with the same tokens -/

/-- What layout does not change about a token. -/
def Token.bare (token : Token) : Kind × String := (token.kind, token.lexeme)

/-- A program in which all places are forgotten. -/
def Program.placeless (program : Program) : Program := Recast.placeless.program program

/-- Two reports of a fault agree but for the places in them. -/
def Diagnostic.Alike (first second : Diagnostic) : Prop :=
  first.fault.phase = second.fault.phase ∧ first.fault.message = second.fault.message

/-- The work on two texts ends alike: with programs that differ in places only and the same store,
with faults that differ in places only, or neither ends. -/
def Ending.Alike : Ending → Ending → Prop
  | .finished first store, .finished second store' => first.placeless = second.placeless ∧
  store = store'
  | .failed first, .failed second => first.Alike second
  | .outOfSteps, .outOfSteps => True
  | _, _ => False

lemma alike_of_placeless {first second : Diagnostic}
    (h : Recast.placeless.diagnostic first = Recast.placeless.diagnostic second) :
    first.Alike second := by
  have fault := congrArg Diagnostic.fault h
  constructor
  · rw [← Recast.placeless.phase_fault, ← Recast.placeless.phase_fault second.fault]
    exact congrArg Fault.phase fault
  · rw [← Recast.placeless.message_fault, ← Recast.placeless.message_fault second.fault]
    exact congrArg Fault.message fault

namespace Program

variable {text text' : String} {tokens tokens' : List Token}

lemma ofText_placeless (scanned : (Cursor.ofText text).scan.1 = .ok tokens)
    (scanned' : (Cursor.ofText text').scan.1 = .ok tokens')
    (same : tokens.map Token.bare = tokens'.map Token.bare) :
    Recast.placeless.answer placeless (ofText text) =
      Recast.placeless.answer placeless (ofText text') := by
  obtain ⟨items, read, rfl⟩ := Tokens.scan_eq_ok_iff.1 scanned
  obtain ⟨items', read', rfl⟩ := Tokens.scan_eq_ok_iff.1 scanned'
  rw [List.map_append, List.map_append] at same
  obtain ⟨sameItems, sameLast⟩ := List.append_inj' same rfl
  have token : Recast.placeless.token = fun token => ⟨token.bare.1, token.bare.2, .nowhere⟩ := rfl
  have last : Recast.placeless.token (Tokens.ofText text).last =
      Recast.placeless.token (Tokens.ofText text').last := by
    rw [token]
    exact congrArg (fun bare : Kind × String => (⟨bare.1, bare.2, .nowhere⟩ : Token))
      (List.singleton_inj.1 sameLast)
  have moved (items : List Token) :
    (items.map Except.ok).map (Recast.placeless.answer Recast.placeless.token) =
      (items.map Token.bare).map fun bare => .ok ⟨bare.1, bare.2, .nowhere⟩ := by
    rw [List.map_map, List.map_map]
    rfl
  have tokens : Recast.placeless.tokens (.ofText text) =
      Recast.placeless.tokens (.ofText text') := by
    unfold Recast.tokens
    rw [last]
    unfold Tokens.ofText
    rw [read, read', moved, moved, sameItems]
  have state : Recast.placeless.state (.ofText text true) =
      Recast.placeless.state (.ofText text' true) :=
    congrArg (ParseState.mk · _ _ _ _ _ _) tokens
  have first := (Parse.recasts_program Recast.lawful_placeless (.ofText text true) rfl).2
  have second := (Parse.recasts_program Recast.lawful_placeless (.ofText text' true) rfl).2
  rw [state] at first
  exact congrArg Prod.fst (first.symm.trans second)

lemma run_placeless {first second : Program} (same : first.placeless = second.placeless)
    (bound : Nat) :
    (first.run bound).1.mapError Recast.placeless.stop =
      (second.run bound).1.mapError Recast.placeless.stop ∧
      (first.run bound).2 = (second.run bound).2 := by
  have run := congrArg (·.run bound) same
  dsimp only [placeless] at run
  rw [Recast.run_program Recast.lawful_placeless, Recast.run_program Recast.lawful_placeless] at run
  exact Prod.mk.inj run

/-- **Layout has no meaning.** Of two texts with the same tokens, wherever these stand, either both
are refused with the same message, or both are accepted as programs that differ in places only.
However many steps are granted, both write the same lines, and both come to the same store, or to
the same message. -/
theorem layout_unseen (scanned : (Cursor.ofText text).scan.1 = .ok tokens)
    (scanned' : (Cursor.ofText text').scan.1 = .ok tokens')
    (same : tokens.map Token.bare = tokens'.map Token.bare) :
    ((∃ first second, ofText text = .error first ∧ ofText text' = .error second ∧
        first.Alike second) ∨
      ∃ first second, ofText text = .ok first ∧ ofText text' = .ok second ∧
        first.placeless = second.placeless) ∧
    ∀ bound, (interpret text bound).output = (interpret text' bound).output ∧
      (interpret text bound).ending.Alike (interpret text' bound).ending := by
  have read := ofText_placeless scanned scanned' same
  unfold interpret
  generalize ofText text = one at read ⊢
  generalize ofText text' = other at read ⊢
  rcases one with first | first <;> rcases other with second | second
  · have alike := alike_of_placeless (Except.error.inj read)
    exact ⟨.inl ⟨first, second, rfl, rfl, alike⟩, fun _ => ⟨rfl, alike⟩⟩
  · cases read
  · cases read
  · have programs : first.placeless = second.placeless := Except.ok.inj read
    refine ⟨.inr ⟨first, second, rfl, rfl, programs⟩, fun bound => ?_⟩
    obtain ⟨stops, machines⟩ := run_placeless programs bound
    dsimp only
    generalize first.run bound = one at stops machines ⊢
    generalize second.run bound = other at stops machines ⊢
    rcases one with ⟨(⟨fault, span⟩ | _) | _, machine⟩ <;>
      rcases other with ⟨(⟨fault', span'⟩ | _) | _, machine'⟩ <;>
      cases stops <;> obtain rfl := machines
    · exact ⟨rfl, rfl, rfl⟩
    · exact ⟨rfl, trivial⟩
    · exact ⟨rfl, programs, rfl⟩

def cramped : String := "program P;var x:Integer;begin x:=7 div 2;writeln(x,1 div(x-3))end."

/-- The same program, spread out and with comments. -/
def spread : String :=
  "program P;
  var x : Integer; { counts }
begin
  x := 7 div 2; { rounds }
  writeln(x, 1 div (x - 3))
end."

theorem layout_unseen_spread : ∃ tokens tokens', (Cursor.ofText cramped).scan.1 = .ok tokens ∧
    (Cursor.ofText spread).scan.1 = .ok tokens' ∧ tokens.map Token.bare = tokens'.map Token.bare ∧
    ((∃ first second, ofText cramped = .error first ∧ ofText spread = .error second ∧
        first.Alike second) ∨
      ∃ first second, ofText cramped = .ok first ∧ ofText spread = .ok second ∧
        first.placeless = second.placeless) ∧
    ∀ bound, (interpret cramped bound).output = (interpret spread bound).output ∧
      (interpret cramped bound).ending.Alike (interpret spread bound).ending := by
  have checked : (Cursor.ofText cramped).scan.1.toOption.any (fun tokens =>
      (Cursor.ofText spread).scan.1.toOption.any fun tokens' =>
        tokens.map Token.bare == tokens'.map Token.bare) := by
    decide +kernel
  obtain ⟨tokens, scanned, rest⟩ := exists_of_any checked
  obtain ⟨tokens', scanned', same⟩ := exists_of_any rest
  have same := eq_of_beq same
  exact ⟨tokens, tokens', scanned, scanned', same, layout_unseen scanned scanned' same⟩

end Program

end SmallPascal
