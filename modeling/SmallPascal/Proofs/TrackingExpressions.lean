import SmallPascal.Proofs.ExpressionReading
import SmallPascal.Proofs.Computing
import SmallPascal.Proofs.Tracking

/-!
What the reading of an expression leaves behind, and where the expressions lie that are read.
-/

namespace SmallPascal

open Steps

/-! ### Operations on literals -/

lemma BinaryOp.single_apply {op : BinaryOp} {v w value : Value} (h : op.apply v w = .ok value) :
    value.Single := by
  have checked {n? : Option Integer} (h : Integer.checked n? = .ok value) : value.Single := by
    cases n? <;> cases h
    exact nofun
  cases op <;> dsimp only [apply] at h
  case add | sub | mul =>
    unfold arithmetic at h
    split at h
    · exact checked h
    · split at h <;> cases h
      exact nofun
  case div =>
    unfold quotient at h
    split at h
    · split at h <;> cases h
      exact nofun
    · cases h
  case intDiv | mod =>
    unfold division at h
    split at h
    · split at h
      · cases h
      · exact checked h
    · cases h
  case lt | le | gt | ge =>
    unfold comparison at h
    split at h
    · cases h
      exact nofun
    · split at h <;> cases h
      exact nofun
  case and | or =>
    unfold logic at h
    split at h <;> cases h
    exact nofun
  case eq =>
    cases h
    exact nofun

lemma UnaryOp.single_apply {op : UnaryOp} {v value : Value} (h : op.apply v = .ok value) :
    value.Single := by
  unfold apply at h
  split at h
  case h_3 =>
    unfold Integer.checked at h
    split at h <;> cases h
    exact nofun
  all_goals
    cases h
    try exact nofun

lemma Value.Single.widen {v : Value} (h : v.Single) : v.widen.Single := by
  cases v <;> first | exact h | exact nofun

lemma Policy.values_single (cs : List Char) :
    Policy.Values ⟨fun _ => True, fun _ => True, fun _ v => v.Single⟩ .empty .empty
      (Node.Fine cs) where
  place _ _ := trivial
  literal value type span h := h.single value type span rfl
  var _ _ _ _ found := nomatch found
  widen _ _ _ _ single := single.widen
  binary _ _ _ _ _ _ _ _ := BinaryOp.single_apply
  unary _ _ _ _ _ _ := UnaryOp.single_apply
  index _ _ _ _ _ _ v _ _ single found := by
    cases v with
    | array => exact absurd rfl single
    | _ => cases found
  call _ _ _ _ _ _ _ found := nomatch found

lemma Expr.single_of_constant? {cs : List Char} {e : Expr} {value : Value}
    (h : (Node.expr e).Throughout (Node.Fine cs)) (found : e.constant? = .ok value) :
    value.Single := by
  have ended := ((Policy.values_single cs).eval e h #[] trivial).2
  unfold constant? at found
  rwa [found] at ended

namespace Node.Lies

variable {cs : List Char} {low high : Nat} {e : Expr}

lemma folded (h : (Node.expr e).Lies cs low high) : (Node.expr e.folded).Lies cs low high := by
  obtain ⟨value, -, found, folded⟩ | ⟨folded, -⟩ := e.folded_cases <;> rw [folded]
  · have single := Expr.single_of_constant? h.fine found
    refine whole h.faithful ?_ nofun h.low h.high
    rintro _ _ _ ⟨⟩
    exact single
  · exact h

end Node.Lies

namespace Parse

variable {cs : List Char} {m : Mark}

/-- From wherever it begins, the reader reads an expression that lies between there and where it
ends. -/
def TracksExpr (cs : List Char) (p : Parse Expr) : Prop :=
  ∀ m, Tracks cs m (fun e m' => (Node.expr e).Lies cs m.front m'.reach) p

/-! ### Operations -/

section

variable {e left right : Expr} {low middle high : Nat}

lemma tracks_fold (h : (Node.expr e).Lies cs low high) :
    Tracks cs m (fun e' _ => (Node.expr e').Lies cs low high) (fold e) := by
  rw [fold_eq]
  refine .get fun s _ => .pure ?_
  split
  · exact h.folded
  · exact h

lemma tracks_binary {op : BinaryOp} {operator : Token} (place : operator.span.Faithful cs)
    (hl : (Node.expr left).Lies cs low middle) (hr : (Node.expr right).Lies cs middle high) :
    Tracks cs m (fun e _ => (Node.expr e).Lies cs low high) (binary op operator left right) := by
  unfold binary
  split
  next type e =>
    obtain ⟨low₁, order₁, high₁⟩ := hl.expr
    obtain ⟨low₂, order₂, high₂⟩ := hr.expr
    refine tracks_fold (.through rfl hl.faithful hr.faithful nofun ?_ low₁ (by omega) high₂)
    refine List.forall_mem_cons.2 ⟨?_, List.forall_mem_singleton.2 ?_⟩
    · exact ⟨hl.fine, Nat.le_refl _, Nat.le_trans high₁ (Nat.le_trans low₂ order₂)⟩
    · exact hr.tight.mono (Nat.le_trans order₁ high₁) (Nat.le_refl _)
  next => exact .fail place

lemma tracks_unary {op : UnaryOp} {operator : Token} {m₁ m₂ : Mark}
    (taken : operator.Taken cs m₁ m₂) (h : (Node.expr e).Lies cs m₂.front high) :
    Tracks cs m (fun e _ => (Node.expr e).Lies cs m₁.front high) (unary op operator e) := by
  unfold unary
  split
  next type found =>
    obtain ⟨low₁, order₁, high₁⟩ := h.expr
    have order := taken.faithful.order
    have behind := taken.behind
    refine tracks_fold
      (.through rfl taken.faithful h.faithful nofun ?_ taken.front (by omega) high₁)
    exact List.forall_mem_singleton.2 (h.tight.mono (by omega) (Nat.le_refl _))
  next => exact .fail taken.faithful

lemma tracks_coerce (h : (Node.expr e).Lies cs low high) (target : Ty) {span : Span}
    (place : span.Faithful cs) (destination : Destination) :
    Tracks cs m (fun e' _ => (Node.expr e').Lies cs low high)
      (coerce e target span destination) := by
  refine .require place fun _ => .ite (fun _ => tracks_fold ?_) fun _ => .pure h
  refine .whole h.faithful nofun ?_ h.low h.high
  exact List.forall_mem_singleton.2 ⟨h.fine, Nat.le_refl _, Nat.le_refl _⟩

lemma tracks_chain {operator? : Kind → Option BinaryOp} {operand : Parse Expr}
    (h : TracksExpr cs operand) : TracksExpr cs (chain operator? operand) := by
  intro m
  refine (h m).bind fun first m₁ before₁ hfirst => ?_
  have hfirst : (Node.expr first).Lies cs m.front m₁.reach := hfirst
  refine .extend (fun e m' => (Node.expr e).Lies cs m.front m'.reach)
    (fun before he => he.mono (Nat.le_refl _) before.reach) (fun left m₂ _ hleft => ?_) hfirst
  refine Tracks.peek.bind fun operator m₃ before₃ ⟨place, _⟩ => ?_
  split
  · exact .pure nofun
  next op _ =>
    refine Tracks.next.bind fun operator' m₄ _ taken => (h m₄).bind fun right m₅ _ hright => ?_
    have hleft := hleft.mono (Nat.le_refl _) (Nat.le_trans before₃.reach
      (Nat.le_trans taken.reach taken.behind))
    refine (tracks_binary place hleft hright).map fun e m₆ before₆ he b same => ?_
    obtain rfl := Option.some.inj same
    exact he.mono (Nat.le_refl _) before₆.reach

end

section

variable {term : Parse Expr} (hterm : TracksExpr cs term)

include hterm

lemma tracks_expressionOf : TracksExpr cs (expressionOf term) := tracks_chain (tracks_chain hterm)

lemma tracks_subscriptOf : TracksExpr cs (subscriptOf term) := fun m =>
  (tracks_expressionOf hterm m).bind fun _ _ _ he => .require he.faithful fun _ => .pure he

lemma tracks_bracketOf (name : Token) (array : Ty) :
    Tracks cs m (fun found m' => ∀ step close, found = some (step, close) →
      (Node.expr step.index).Lies cs m.reach close.stop ∧ close.Faithful cs ∧ close.stop ≤ m'.reach)
      (bracketOf term name array) := by
  refine Tracks.check.bind fun opens m₁ before₁ _ => .ite (fun _ => ?_) fun _ => .pure nofun
  refine Tracks.next.bind fun bracket m₂ _ opened => ?_
  cases array with
  | array low high item =>
    refine (tracks_subscriptOf hterm m₂).bind fun index m₃ _ hindex => ?_
    refine Tracks.expect.bind fun close m₄ _ closed => .pure ?_
    rintro _ _ ⟨⟩
    refine ⟨hindex.mono ?_ closed.reach, closed.faithful, Nat.le_trans closed.behind m₄.order⟩
    exact Nat.le_trans before₁.reach (Nat.le_trans opened.reach opened.behind)
  | _ => exact .fail opened.faithful

lemma tracks_argumentsOf {head : Token} (place : head.span.Faithful cs)
    (behind : head.span.stop ≤ m.front) :
    Tracks cs m (fun found m' => found.2.Faithful cs ∧ head.span.stop ≤ found.2.stop ∧
      found.2.stop ≤ m'.reach ∧ ∀ arg ∈ found.1, (Node.expr arg).Lies cs m.front found.2.stop)
      (argumentsOf term head) := by
  refine Tracks.accept.bind fun opens m₁ before₁ _ => .ite (fun _ => ?_) fun _ => .pure ?_
  · refine Tracks.check.bind fun closes m₂ before₂ _ => ?_
    extract_lets rest
    have closed (args : List Expr) (m₃ : Mark) (before₃ : m₁.Before m₃)
        (hargs : ∀ arg ∈ args, (Node.expr arg).Lies cs m₁.front m₃.reach) :
        Tracks cs m₃ (fun found m' => found.2.Faithful cs ∧ head.span.stop ≤ found.2.stop ∧
          found.2.stop ≤ m'.reach ∧ ∀ arg ∈ found.1, (Node.expr arg).Lies cs m.front found.2.stop)
          (rest args) := by
      refine Tracks.expect.bind fun close m₄ _ closed => .pure ⟨closed.faithful, ?_, ?_, ?_⟩
      · have := before₁.front
        have := before₃.front
        have := closed.front
        have := closed.faithful.order
        change head.span.stop ≤ close.span.stop
        omega
      · exact Nat.le_trans closed.behind m₄.order
      · exact fun arg among => (hargs arg among).mono before₁.front closed.reach
    refine .ite (fun _ => closed [] m₂ before₂ (by simp)) fun _ => ?_
    refine (Tracks.separated (fun low high e => (Node.expr e).Lies cs low high)
      (fun lower higher he => he.mono lower higher) (tracks_expressionOf hterm)).bind
      fun args m₃ before₃ hargs => closed args m₃ (before₂.trans before₃) fun arg among => ?_
    exact (hargs arg among).mono before₂.front (Nat.le_refl _)
  · refine ⟨place, Nat.le_refl _, ?_, by simp⟩
    exact Nat.le_trans behind (Nat.le_trans before₁.front m₁.order)

lemma tracks_callOf (symbol : Symbol) {name : Token} (place : name.span.Faithful cs)
    (behind : name.span.stop ≤ m.front) :
    Tracks cs m (fun found m' => found.2.Faithful cs ∧ found.2.start = name.span.start ∧
      found.2.stop ≤ m'.reach ∧
      ∀ arg ∈ found.1, (Node.expr arg).Lies cs found.2.start found.2.stop)
      (callOf term symbol name) := by
  have called {params : Params} (callable : (∃ returns, symbol.type = .function params returns) ∨
      symbol.type = .procedure params) : Tracks cs m (fun found m' => found.2.Faithful cs ∧
        found.2.start = name.span.start ∧ found.2.stop ≤ m'.reach ∧
        ∀ arg ∈ found.1, (Node.expr arg).Lies cs found.2.start found.2.stop)
      (callOf term symbol name) := by
    rw [callOf_eq symbol name callable]
    refine (tracks_argumentsOf hterm place behind).bind fun ⟨args, last⟩ m₁ before₁ found => ?_
    obtain ⟨ends, order, reach, hargs⟩ := found
    have span : (name.span.through last).Faithful cs := place.through ends
    have forward := place.order
    refine .require span fun _ => ?_
    have inside (arg : Expr) (among : arg ∈ args) : (Node.expr arg).Lies cs
        (name.span.through last).start (name.span.through last).stop :=
      (hargs arg among).mono (Nat.le_trans forward behind) (Span.stop_le_stop_through_right _ _)
    have fitted : Tracks cs m₁ (fun args _ => ∀ arg ∈ args, (Node.expr arg).Lies cs
        (name.span.through last).start (name.span.through last).stop)
        ((args.zip params).mapM fun item =>
          coerce item.1 item.2.2 item.1.span (.argument item.2.1 name.lexeme)) := by
      refine .mapM fun item among m => ?_
      have fits := inside item.1 (List.of_mem_zip among).1
      exact tracks_coerce fits item.2.2 fits.faithful _
    refine fitted.bind fun args m₂ before₂ hargs => .pure ⟨span, rfl, ?_, hargs⟩
    have reach := Nat.le_trans reach before₂.reach
    exact Nat.max_le.2 ⟨reach, Nat.le_trans order reach⟩
  rcases e : symbol.type with _ | _ | _ | _ | _ | ⟨params, returns⟩ | params
  case function => exact called (.inl ⟨returns, e⟩)
  case procedure => exact called (.inr e)
  all_goals
    unfold callOf
    rw [e]
    exact .fail place

variable {low : Nat} {name : Token}

lemma tracks_valueOf {symbol : Symbol} (single : symbol.Single) (place : name.span.Faithful cs)
    (begins : low ≤ name.span.start) (behind : name.span.stop ≤ m.front) :
    Tracks cs m (fun e m' => (Node.expr e).Lies cs low m'.reach) (valueOf term name symbol) := by
  have leaf {e : Expr} {m' : Mark} (before : m.Before m') (span : e.span = name.span)
      (none : (Node.expr e).children = [])
      (single : ∀ value type span, e = .literal value type span → value.Single) :
      (Node.expr e).Lies cs low m'.reach := by
    refine .whole ?_ (fun value type span is => single value type span (Node.expr.inj is))
      (by simp [none]) ?_ ?_ <;> rw [Node.span_expr, span]
    · exact place
    · exact begins
    · exact Nat.le_trans behind (Nat.le_trans before.front m'.order)
  unfold valueOf
  rcases e : symbol.meaning with value | _ | _ | id | id <;> dsimp only
  case constant =>
    refine .pure (leaf (.refl m) rfl rfl ?_)
    rintro _ _ _ ⟨⟩
    exact single value e
  case function =>
    split
    · refine (tracks_callOf hterm symbol place behind).bind fun ⟨args, span⟩ m₁ _ found => .pure ?_
      obtain ⟨faithful, start, reach, hargs⟩ := found
      refine .whole faithful nofun ?_ (Nat.le_trans begins (Nat.le_of_eq start.symm)) reach
      intro child direct
      obtain ⟨arg, among, rfl⟩ := List.mem_map.1 direct
      exact hargs arg among
    · exact .fail place
  case procedure => exact .fail place
  all_goals
    refine Tracks.check.bind fun _ m₁ before₁ _ => ?_
    refine .ite (fun _ => (Tracks.fail place).stop) fun _ => ?_
    exact .pure (leaf before₁ rfl rfl nofun)

lemma tracks_indexed (name : Token) {value : Parse Expr}
    (hvalue : Tracks cs m (fun e m' => (Node.expr e).Lies cs low m'.reach) value) :
    Tracks cs m (fun e m' => (Node.expr e).Lies cs low m'.reach) (do
      let first ← value
      extend (fun array => do
        match ← bracketOf term name array.type with
        | some (step, close) =>
          return some (.index array step.index step.low step.high step.item
            (array.span.through close))
        | none => return none) first) := by
  refine hvalue.bind fun first m₁ _ hfirst => ?_
  refine .extend (fun e m' => (Node.expr e).Lies cs low m'.reach)
    (fun before he => he.mono (Nat.le_refl _) before.reach) (fun array m₂ _ harray => ?_) hfirst
  refine (tracks_bracketOf hterm name array.type).bind fun found m₃ before₃ hfound => ?_
  cases found with
  | none => exact .pure nofun
  | some found =>
    obtain ⟨hindex, ends, reach⟩ := hfound found.1 found.2 rfl
    obtain ⟨low₁, order₁, high₁⟩ := harray.expr
    obtain ⟨low₂, order₂, high₂⟩ := hindex.expr
    have reached := before₃.reach
    refine .pure fun e same => ?_
    obtain rfl := Option.some.inj same
    refine .through rfl harray.faithful ends nofun ?_ low₁ (by omega) reach
    refine List.forall_mem_cons.2 ⟨?_, List.forall_mem_singleton.2 ?_⟩
    · exact ⟨harray.fine, Nat.le_refl _, Nat.le_trans high₁ (Nat.le_trans low₂ (by omega))⟩
    · exact hindex.mono (by omega) (Nat.le_refl _)

lemma tracks_nameOf (place : name.span.Faithful cs) (begins : low ≤ name.span.start)
    (behind : name.span.stop ≤ m.front) :
    Tracks cs m (fun e m' => (Node.expr e).Lies cs low m'.reach) (nameOf term name) := by
  refine (Tracks.lookup place).bind fun symbol m₁ before₁ single => .get fun s _ => ?_
  have value := tracks_indexed hterm name
    (tracks_valueOf hterm single place begins (Nat.le_trans behind before₁.front))
  split
  · exact value
  · exact value
  · exact .fail place

lemma tracks_termOf : TracksExpr cs (termOf term) := by
  intro m
  refine Tracks.next.bind fun token m₁ before₁ taken => ?_
  have leaf {value : Value} {type : Ty} (single : value.Single) :
      (Node.expr (.literal value type token.span)).Lies cs m.front m₁.reach := by
    refine .whole taken.faithful ?_ nofun taken.front (Nat.le_trans taken.behind m₁.order)
    rintro _ _ _ ⟨⟩
    exact single
  have later {e : Expr} {m₂ m₃ : Mark} (he : (Node.expr e).Lies cs m.front m₂.reach)
      (before : m₂.Before m₃) : (Node.expr e).Lies cs m.front m₃.reach :=
    he.mono (Nat.le_refl _) before.reach
  split
  · split
    · exact .pure (leaf nofun)
    · exact .throw taken.faithful
  · exact .pure (leaf nofun)
  · exact .pure (leaf nofun)
  · exact .pure (leaf nofun)
  · exact .pure (leaf nofun)
  · exact (tracks_expressionOf hterm m₁).bind fun e m₂ _ he => (tracks_unary taken he).imp
      fun _ _ before h => later h before
  · exact (hterm m₁).bind fun e m₂ _ he => (tracks_unary taken he).imp fun _ _ before h =>
      later h before
  · exact (hterm m₁).bind fun e m₂ _ he => (tracks_unary taken he).imp fun _ _ before h =>
      later h before
  · refine (tracks_expressionOf hterm m₁).bind fun e m₂ _ he => ?_
    refine Tracks.expect.bind fun _ m₃ before₃ _ => .pure ?_
    exact he.mono before₁.front before₃.reach
  · exact tracks_nameOf hterm taken.faithful taken.front taken.behind
  · exact .unexpected taken.faithful

end

lemma tracks_termWithin : ∀ bound, TracksExpr cs (termWithin bound)
  | 0 => fun _ => .exhausted
  | bound + 1 => fun _ s => tracks_termOf (tracks_termWithin bound) _ s

lemma tracks_term : TracksExpr cs term := fun _ =>
  Tracks.budget.bind fun bound m₁ before _ => (tracks_termWithin bound m₁).imp fun _ _ _ he =>
    he.mono before.front (Nat.le_refl _)

lemma tracks_expression : TracksExpr cs expression := tracks_expressionOf tracks_term

/-- A constant that fails does so at a place of the text, and its value is no array. -/
lemma tracks_constantValue {e : Expr} (h : (Node.expr e).Throughout (Node.Fine cs)) :
    Tracks cs m (fun found _ => match found with
      | .ok value => value.Single
      | .error (_, span) => span.Faithful cs) (constantValue e) := by
  rw [constantValue_eq]
  rcases found : e.constant? with (⟨fault, span⟩ | _) | value
  · exact .pure (Expr.blamed_of_constant? (fun node among => (h node among).faithful) found)
  · exact .exhausted
  · exact .pure (Expr.single_of_constant? h found)

end Parse

end SmallPascal
