import SmallPascal.Proofs.Recast

/-!
Reading what is recast: a reader answers the recast answer, fails with the recast diagnostic, and
knows the recast of all that it knew. That is a free theorem, so it is proved reader by reader.
-/

namespace SmallPascal

open Steps

namespace Recast

variable (m : Recast)

/-! ### What a reader knows -/

def answer {α β : Type} (f : α → β) : Except Diagnostic α → Except Diagnostic β
  | .ok a => .ok (f a)
  | .error diagnostic => .error (m.diagnostic diagnostic)

/-- The tokens that are left, at their new places. -/
def tokens (tokens : Tokens) : Tokens := ⟨tokens.items.map (m.answer m.token), m.token tokens.last⟩

/-- The declared names, at their new places. -/
def scopes (scopes : Scopes) : Scopes :=
  ⟨scopes.program.map m.symbol, scopes.nested.map (List.map m.symbol)⟩

/-- All that a reader knows, recast, with no record of what it computed. -/
def state {ρ : Type} (s : ParseState ρ) : ParseState where
  tokens := m.tokens s.tokens
  scopes := m.scopes s.scopes
  routines := s.routines.map m.routine
  enclosing := s.enclosing
  inConstant := s.inConstant
  folding := m.after
  record := ()

lemma peek_tokens (tokens : Tokens) : (m.tokens tokens).peek = m.answer m.token tokens.peek := by
  obtain ⟨items, last⟩ := tokens
  cases items <;> rfl

lemma peek_state {ρ : Type} (s : ParseState ρ) :
    (m.state s).tokens.peek = m.answer m.token s.tokens.peek :=
  m.peek_tokens s.tokens

lemma tail_tokens (tokens : Tokens) : (m.tokens tokens).tail = m.tokens tokens.tail := by
  obtain ⟨items, last⟩ := tokens
  cases items <;> rfl

lemma find?_map_symbol (scope : Scope) (name : String) :
    Scope.find? (scope.map m.symbol) name = (scope.find? name).map m.symbol := by
  unfold Scope.find?
  rw [List.find?_map]
  rfl

lemma resolve_scopes (scopes : Scopes) (name : String) :
    (m.scopes scopes).resolve name = (scopes.resolve name).map m.symbol := by
  have all (levels : List Scope) :
      (levels.map (List.map m.symbol)).findSome? (fun scope => Scope.find? scope name) =
        (levels.findSome? (·.find? name)).map m.symbol := by
    induction levels with
    | nil => rfl
    | cons scope rest ih =>
      rw [List.map_cons, List.findSome?_cons, List.findSome?_cons, ih, find?_map_symbol]
      cases scope.find? name <;> rfl
  unfold Scopes.resolve
  rw [← all, List.map_append]
  rfl

lemma declare_scopes (scopes : Scopes) (symbol : Symbol) :
    (m.scopes scopes).declare (m.symbol symbol) = m.answer m.scopes (scopes.declare symbol) := by
  have current : (m.scopes scopes).current = scopes.current.map m.symbol := by
    obtain ⟨program, nested⟩ := scopes
    cases nested <;> rfl
  have name : (m.symbol symbol).name = symbol.name := rfl
  unfold Scopes.declare
  rw [name, current, find?_map_symbol]
  cases scopes.current.find? symbol.name with
  | some first => rfl
  | none =>
    obtain ⟨program, nested⟩ := scopes
    cases nested <;> rfl

lemma pop_scopes (scopes : Scopes) : (m.scopes scopes).pop = m.scopes scopes.pop := by
  unfold Scopes.pop
  exact congrArg (Scopes.mk _) List.map_tail.symm

section

variable {m} (h : m.span = id)

include h

lemma answer_of_span {α : Type} : m.answer (id : α → α) = id := by
  funext answer
  cases answer with
  | ok => rfl
  | error diagnostic => exact congrArg Except.error (congrFun (diagnostic_of_span h) diagnostic)

lemma tokens_of_span : m.tokens = id := by
  funext tokens
  unfold Recast.tokens
  rw [token_of_span h, answer_of_span h, List.map_id]
  rfl

lemma scopes_of_span : m.scopes = id := by
  funext scopes
  unfold Recast.scopes
  rw [symbol_of_span h, List.map_id, List.map_id_fun, List.map_id]
  rfl

end

end Recast

namespace Parse

/-- The second reader does on what is recast what the first one does, but for the record. -/
def Recasts (ρ : Type) (m : Recast) {α β : Type} (f : α → β) (p : Reading ρ α)
    (q : Parse β) : Prop :=
  ∀ s : ParseState ρ, s.folding = m.before →
    (p s).2.folding = m.before ∧ q (m.state s) = (m.answer f (p s).1, m.state (p s).2)

namespace Recasts

variable {ρ : Type} {m : Recast} {α β γ δ : Type} {f : α → β} {g : γ → δ}

/-! ### Putting readers together -/

lemma pure {a : α} {b : β} (h : f a = b) : Recasts ρ m f (pure a) (pure b) := by
  subst h
  exact fun s folds => ⟨folds, rfl⟩

lemma throw {d e : Diagnostic} (h : m.diagnostic d = e) : Recasts ρ m f (throw d) (throw e) := by
  subst h
  exact fun s folds => ⟨folds, rfl⟩

lemma bind {p : Reading ρ α} {q : Parse β} {k : α → Reading ρ γ} {l : β → Parse δ}
    (h : Recasts ρ m f p q)
    (next : ∀ a, Recasts ρ m g (k a) (l (f a))) : Recasts ρ m g (p >>= k) (q >>= l) := by
  intro s folds
  have first := h s folds
  rw [bind_apply, bind_apply]
  rcases e : p s with ⟨_ | a, t⟩ <;> rw [e] at first <;> rw [first.2]
  · exact ⟨first.1, rfl⟩
  · exact next a t first.1

lemma map {p : Reading ρ α} {q : Parse β} {k : α → γ} {l : β → δ} (h : Recasts ρ m f p q)
    (next : ∀ a, g (k a) = l (f a)) : Recasts ρ m g (k <$> p) (l <$> q) := by
  rw [map_eq_pure_bind, map_eq_pure_bind]
  exact h.bind fun a => pure (next a)

lemma get {k : ParseState ρ → Reading ρ α} {l : ParseState → Parse α} {f : α → α}
    (h : ∀ s, s.folding = m.before → Recasts ρ m f (k s) (l (m.state s))) :
    Recasts ρ m f (get >>= k) (get >>= l) :=
  fun s folds => h s folds s folds

lemma modify {k : ParseState ρ → ParseState ρ} {l : ParseState → ParseState}
    (h : ∀ s, l (m.state s) = m.state (k s)) (keeps : ∀ s, (k s).folding = s.folding) :
    Recasts ρ m id (modify k : Reading ρ Unit) (modify l : Parse Unit) := by
  intro s folds
  refine ⟨(keeps s).trans folds, ?_⟩
  change ((Except.ok (), l (m.state s)) : Except Diagnostic Unit × ParseState) = _
  rw [h]
  rfl

lemma ite {c d : Prop} [Decidable c] [Decidable d] {p p' : Reading ρ α} {q q' : Parse β} (h : c ↔ d)
    (yes : Recasts ρ m f p q) (no : Recasts ρ m f p' q') :
    Recasts ρ m f (if c then p else p') (if d then q else q') := by
  by_cases holds : c
  · rw [if_pos holds, if_pos (h.1 holds)]
    exact yes
  · rw [if_neg holds, if_neg fun other => holds (h.2 other)]
    exact no

lemma require {c d : Prop} [Decidable c] [Decidable d] {p : Reading ρ Unit}
    {q : Parse Unit} {k : Unit → Reading ρ α} {l : Unit → Parse β} (h : c ↔ d)
    (refused : Recasts ρ m id p q) (next : Recasts ρ m f (k ()) (l ())) :
    Recasts ρ m f (if c then k () else p >>= k) (if d then l () else q >>= l) :=
  ite h next (refused.bind fun _ => next)

/-! ### Tokens -/

lemma peek : Recasts ρ m m.token peek peek := by
  unfold Parse.peek
  refine get fun s _ => ?_
  rw [m.peek_state]
  cases s.tokens.peek with
  | ok => exact pure rfl
  | error => exact throw rfl

lemma next : Recasts ρ m m.token next next := by
  unfold Parse.next
  refine get fun s _ => ?_
  extract_lets tokens tokens'
  refine Recasts.bind (modify (fun t => ?_) fun _ => rfl) fun _ => ?_
  · change { m.state t with tokens := (m.tokens s.tokens).tail } = _
    rw [m.tail_tokens]
    rfl
  · rw [show tokens'.peek = _ from m.peek_state s]
    cases s.tokens.peek with
    | ok => exact pure rfl
    | error => exact throw rfl

lemma unexpected {expected : Expectation} {found : Token} :
    Recasts ρ m f (unexpected expected found) (unexpected expected (m.token found)) := throw rfl

lemma fail {fault fault' : SemanticFault} {span : Span} (h : m.semanticFault fault = fault') :
    Recasts ρ m f (fail fault span) (fail fault' (m.span span)) := by
  subst h
  exact throw rfl

lemma expect {kind : Kind} : Recasts ρ m m.token (expect kind) (expect kind) :=
  next.bind fun _ => ite Iff.rfl (pure rfl) unexpected

lemma check {kind : Kind} : Recasts ρ m id (check kind) (check kind) := peek.bind fun _ => pure rfl

lemma accept {kind : Kind} : Recasts ρ m id (accept kind) (accept kind) :=
  check.bind fun _ => ite Iff.rfl (next.bind fun _ => pure rfl) (pure rfl)

lemma budget : Recasts ρ m id budget budget :=
  get fun _ _ => pure (congrArg (· + 1) (List.length_map _).symm)

lemma exhausted : Recasts ρ m f exhausted exhausted := next.bind fun _ => unexpected

/-! ### Repetition -/

lemma manyWithin {more : Reading ρ Bool} {more' : Parse Bool} {item : Reading ρ α} {item' : Parse β}
    (hmore : Recasts ρ m id more more') (hitem : Recasts ρ m f item item') :
    ∀ bound, Recasts ρ m (List.map f) (manyWithin more item bound) (manyWithin more' item' bound)
  | 0 => exhausted
  | bound + 1 => by
    refine hmore.bind fun _ => ite Iff.rfl ?_ (pure rfl)
    exact hitem.bind fun _ => (manyWithin hmore hitem bound).bind fun _ => pure rfl

lemma many {more : Reading ρ Bool} {more' : Parse Bool} {item : Reading ρ α} {item' : Parse β}
    (hmore : Recasts ρ m id more more') (hitem : Recasts ρ m f item item') :
    Recasts ρ m (List.map f) (many more item) (many more' item') :=
  budget.bind fun bound => manyWithin hmore hitem bound

lemma separated {separator : Kind} {item : Reading ρ α} {item' : Parse β}
    (h : Recasts ρ m f item item') :
    Recasts ρ m (List.map f) (separated separator item) (separated separator item') :=
  h.bind fun _ => (many accept h).bind fun _ => pure rfl

lemma extendWithin {step : α → Reading ρ (Option α)} {step' : β → Parse (Option β)}
    (h : ∀ a, Recasts ρ m (Option.map f) (step a) (step' (f a))) :
    ∀ bound a, Recasts ρ m f (extendWithin step bound a) (extendWithin step' bound (f a))
  | 0, _ => exhausted
  | bound + 1, a => by
    refine (h a).bind fun found => ?_
    cases found with
    | some b => exact extendWithin h bound b
    | none => exact pure rfl

lemma extend {step : α → Reading ρ (Option α)} {step' : β → Parse (Option β)}
    (h : ∀ a, Recasts ρ m (Option.map f) (step a) (step' (f a))) (a : α) :
    Recasts ρ m f (extend step a) (extend step' (f a)) :=
  budget.bind fun bound => extendWithin h bound a

lemma mapM {k : α → Reading ρ γ} {l : β → Parse δ} (h : ∀ a, Recasts ρ m g (k a) (l (f a))) :
    ∀ items : List α, Recasts ρ m (List.map g) (items.mapM k) ((items.map f).mapM l)
  | [] => pure rfl
  | a :: rest => by
    rw [List.mapM_cons, List.map_cons, List.mapM_cons]
    exact (h a).bind fun _ => (mapM h rest).bind fun _ => pure rfl

lemma forM {k : α → Reading ρ Unit} {l : β → Parse Unit} (h : ∀ a, Recasts ρ m id (k a) (l (f a))) :
    ∀ items : List α, Recasts ρ m id (items.forM k) ((items.map f).forM l)
  | [] => pure rfl
  | a :: rest => (h a).bind fun _ => forM h rest

/-! ### Names -/

lemma lookup (name : Token) : Recasts ρ m m.symbol (lookup name) (lookup (m.token name)) := by
  refine get fun s _ => ?_
  have found : (m.state s).scopes.resolve (m.token name).lexeme = _ :=
    m.resolve_scopes _ name.lexeme
  rw [found]
  cases s.scopes.resolve name.lexeme with
  | some => exact pure rfl
  | none => exact fail rfl

lemma declare (symbol : Symbol) : Recasts ρ m id (declare symbol) (declare (m.symbol symbol)) := by
  refine get fun s _ => ?_
  have declared : (m.state s).scopes.declare (m.symbol symbol) = _ := m.declare_scopes _ _
  rw [declared]
  cases s.scopes.declare symbol with
  | ok => exact modify (fun _ => rfl) fun _ => rfl
  | error => exact throw rfl

lemma asConstant {p : Reading ρ α} {q : Parse β} (h : Recasts ρ m f p q) :
    Recasts ρ m f (asConstant p) (asConstant q) := by
  intro s folds
  obtain ⟨folds', e⟩ := h { s with inConstant := true } folds
  have e : q { m.state s with inConstant := true } = _ := e
  refine ⟨folds', ?_⟩
  unfold Parse.asConstant
  rw [e]
  rfl

lemma inRoutine {id : RoutineId} {p : Reading ρ α} {q : Parse β} (h : Recasts ρ m f p q) :
    Recasts ρ m f (inRoutine id p) (inRoutine id q) := by
  intro s folds
  let inside : ParseState ρ := { s with scopes := s.scopes.push, enclosing := id :: s.enclosing }
  obtain ⟨folds', e⟩ := h inside folds
  have e : q { m.state s with
      scopes := (m.state s).scopes.push, enclosing := id :: (m.state s).enclosing } = _ := e
  refine ⟨folds', ?_⟩
  unfold Parse.inRoutine
  dsimp only
  rw [e]
  simp only [Recast.state, m.pop_scopes]
  rfl

end Recasts

end Parse

end SmallPascal
