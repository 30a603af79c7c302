import SmallPascal.Proofs.Fitting

/-! Reading declarations and whole programs: what a reader knows keeps fitting an outline, which
grows by what is declared. -/

namespace SmallPascal

open Steps

namespace Parse

/-! ### Types -/

section

variable {sight : Sight}

lemma reads_asConstant {α : Type} {good : α → Prop} {p : Parse α} (h : Reads sight.known good p) :
    Reads sight.known good (asConstant p) := by
  intro s a t sees e
  unfold asConstant at e
  rcases read : p { s with inConstant := true } with ⟨result, after⟩
  simp only [read] at e
  obtain ⟨rfl, rfl⟩ := Prod.mk.inj e
  obtain ⟨on, ha⟩ :=
    h { s with inConstant := true } a after ⟨sees.data, sees.names, sees.result⟩ read
  exact ⟨⟨congrArg (fun u => { u with inConstant := s.inConstant }) on.same, on.items, on.last⟩, ha⟩

lemma reads_constantValue {e : Expr} (typed : e.WellTyped sight) :
    Reads sight.known (fun found => ∀ value, found = .ok value →
      value.HasShape e.type ∧ e.type.isData) (constantValue e) := by
  intro s found t sees read
  rw [constantValue_eq] at read
  rcases valued : e.constant? with stop | value <;> rw [valued] at read
  · cases stop with
    | fault =>
      obtain ⟨rfl, rfl⟩ := pure_eq_ok.1 read
      exact ⟨.refl s, nofun⟩
    | outOfSteps => exact absurd read exhausted_ne_ok
  · obtain ⟨rfl, rfl⟩ := pure_eq_ok.1 read
    refine ⟨.refl s, fun value' same => ?_⟩
    obtain rfl := Except.ok.inj same
    exact ⟨Discipline.hasShape_constant? sees.data typed valued, typed.isData sees.data⟩

lemma reads_arrayBound : Reads sight.known (fun _ => True) arrayBound := by
  refine (reads_asConstant reads_expression).bind fun e typed => .require .fail fun _ => ?_
  refine (reads_constantValue typed).bind fun found _ => ?_
  split
  · exact .pure trivial
  · exact .fail
  · exact .throw

lemma reads_typeOf {item : Parse Ty} (h : Reads sight.known (fun type => type.isData) item) :
    Reads sight.known (fun type => type.isData) (typeOf item) := by
  refine Reads.next.bind fun token _ => ?_
  split
  · exact .pure rfl
  · exact .pure rfl
  · exact .pure rfl
  · refine Reads.expect.bind fun _ _ => reads_arrayBound.bind fun low _ => ?_
    refine Reads.expect.bind fun _ _ => reads_arrayBound.bind fun high _ => ?_
    refine Reads.expect.bind fun _ _ => Reads.expect.bind fun _ _ => h.bind fun type data => ?_
    split
    · exact .stop .fail
    · exact .pure data
  · exact .unexpected

lemma reads_typeWithin : ∀ bound, Reads sight.known (fun type => type.isData) (typeWithin bound)
  | 0 => .exhausted
  | bound + 1 => fun s => reads_typeOf (reads_typeWithin bound) s

lemma reads_type : Reads sight.known (fun type => type.isData) type :=
  Reads.budget.bind fun bound _ => reads_typeWithin bound

end

/-! ### Readers of declarations -/

/-- A reader inside a part fits the outline. -/
def fitting (o : Outline) (part : Option RoutineId) : Knowledge where
  holds s := Fits o s ∧ s.enclosing.head? = part
  stays h on := ⟨h.1.stays on, on.enclosing ▸ h.2⟩

variable {o : Outline} {part : Option RoutineId} {α β : Type}

lemma Reads.under {known known' : Knowledge} {good : α → Prop} {p : Parse α}
    (h : Reads known good p) (weaker : ∀ s, known'.holds s → known.holds s) : Reads known' good p :=
  fun s a t holds e => h s a t (weaker s holds) e

lemma Reads.inPart {good : α → Prop} {p : Parse α} (h : Reads (o.sight part).known good p) :
    Reads (fitting o part) good p :=
  h.under fun _ ⟨fits, here⟩ => here ▸ fits.sees

lemma Reads.inOrder {good : α → Prop} {p : Parse α} (h : Reads orderly good p) :
    Reads (fitting o part) good p :=
  h.under fun _ ⟨fits, _⟩ => fits.placed.orderly

/-- What is read inside a part makes the outline grow, by the storage that the part declares. -/
def Declares (o : Outline) (part : Option RoutineId) (fine : α → List (String × Ty) → Prop)
    (p : Parse α) : Prop :=
  ∀ s a t, Fits o s → s.enclosing.head? = part → p s = (.ok a, t) →
    ∃ o' vars, fine a vars ∧ o.Grows o' part vars ∧ Fits o' t ∧ t.enclosing = s.enclosing

namespace Declares

variable {fine : α → List (String × Ty) → Prop} {fine' : β → List (String × Ty) → Prop}

lemma pure {a : α} (h : fine a []) : Declares o part fine (pure a) := by
  intro s b t fits _ e
  obtain ⟨rfl, rfl⟩ := pure_eq_ok.1 e
  exact ⟨o, [], h, .refl, fits, rfl⟩

lemma bind {p : Parse α} {f : α → Parse β} (h : Declares o part fine p)
    (next : ∀ o' a vars, fine a vars →
      Declares o' part (fun b more => fine' b (vars ++ more)) (f a)) :
    Declares o part fine' (p >>= f) := by
  intro s b u fits here e
  obtain ⟨a, t, first, e⟩ := bind_eq_ok.1 e
  obtain ⟨o', vars, ha, grows, fits', same⟩ := h s a t fits here first
  have here' : t.enclosing.head? = part := same ▸ here
  obtain ⟨o'', more, hb, grows', fits'', same'⟩ := next o' a vars ha t b u fits' here' e
  exact ⟨o'', vars ++ more, hb, grows.trans grows', fits'', same'.trans same⟩

lemma after {good : α → Prop} {p : Parse α} {f : α → Parse β} (h : Reads (fitting o part) good p)
    (next : ∀ a, good a → Declares o part fine' (f a)) : Declares o part fine' (p >>= f) := by
  intro s b u fits here e
  obtain ⟨a, t, first, e⟩ := bind_eq_ok.1 e
  obtain ⟨on, ha⟩ := h s a t ⟨fits, here⟩ first
  have fits₁ := fits.stays on
  have here₁ : t.enclosing.head? = part := on.enclosing ▸ here
  obtain ⟨o', vars, hb, grows, fits', same⟩ := next a ha t b u fits₁ here₁ e
  exact ⟨o', vars, hb, grows, fits', same.trans on.enclosing⟩

lemma store {p : Parse α} {vars : List (String × Ty)}
    (stored : ∀ name type, (name, type) ∈ vars → name ≠ resultSlot ∧ type.isData)
    (h : Declares (o.store part vars) part (fun a more => fine a (vars ++ more)) p) :
    Declares o part fine p := by
  intro s a t fits here e
  have fits' : Fits (o.store part vars) s := here ▸ fits.store stored
  obtain ⟨o', more, ha, grows, rest⟩ := h s a t fits' here e
  exact ⟨o', vars ++ more, ha, Outline.grows_store.trans grows, rest⟩

lemma declareAll {items : List α} {symbol : α → Symbol}
    (seen : ∀ a ∈ items, (symbol a).Seen (o.own part)) :
    Declares o part (fun _ vars => vars = []) (items.forM fun a => declare (symbol a)) := by
  have kept : ∀ s u t, Fits o s → s.enclosing.head? = part →
      items.forM (fun a => declare (symbol a)) s = (.ok u, t) →
        Fits o t ∧ t.enclosing = s.enclosing := by
    induction items with
    | nil =>
      intro s u t fits _ e
      obtain ⟨-, rfl⟩ := pure_eq_ok.1 e
      exact ⟨fits, rfl⟩
    | cons a rest ih =>
      intro s u t fits here e
      obtain ⟨_, s₁, first, e⟩ := bind_eq_ok.1 e
      obtain ⟨scopes, declared, rfl⟩ := declare_eq_ok first
      have fits₁ := fits.declare declared (here ▸ seen a List.mem_cons_self)
      have others : ∀ b ∈ rest, (symbol b).Seen (o.own part) :=
        fun b among => seen b (List.mem_cons_of_mem _ among)
      exact ih others { s with scopes } u t fits₁ here e
  intro s u t fits here e
  exact ⟨o, [], rfl, .refl, kept s u t fits here e⟩

lemma many {more : Parse Bool} {item : Parse Declarations}
    (hmore : ∀ o, Reads (fitting o part) (fun _ => True) more)
    (hitem : ∀ o, Declares o part (fun d vars => d.vars = vars) item) :
    Declares o part (fun items vars => items.flatMap (·.vars) = vars) (many more item) := by
  intro s items t fits here e
  let P (done : List Declarations) (u : ParseState) : Prop := ∃ o',
    o.Grows o' part (done.flatMap (·.vars)) ∧ Fits o' u ∧ u.enclosing = s.enclosing
  have reached := many_keeps (P := P) ?_ ?_ ⟨o, .refl, fits, rfl⟩ e
  · obtain ⟨o', grows, rest⟩ := reached
    exact ⟨o', _, rfl, grows, rest⟩
  · rintro done u b v ⟨o', grows, fits', same⟩ asked
    have here' : u.enclosing.head? = part := same ▸ here
    obtain ⟨on, -⟩ := hmore o' u b v ⟨fits', here'⟩ asked
    exact ⟨o', grows, fits'.stays on, on.enclosing.trans same⟩
  · rintro done u d v ⟨o', grows, fits', same⟩ taken
    have here' : u.enclosing.head? = part := same ▸ here
    obtain ⟨o'', vars, rfl, grows', fits'', same'⟩ := hitem o' u d v fits' here' taken
    refine ⟨o'', ?_, fits'', same'.trans same⟩
    rw [List.flatMap_append, List.flatMap_singleton]
    exact grows.trans grows'

end Declares

/-! ### Constants and variables -/

lemma reads_names : Reads orderly (fun group => ∀ name ∈ group, name.lexeme ≠ resultSlot) names :=
  .separated reads_identifier

lemma reads_constantNames : Reads orderly (fun _ => True) constantNames := by
  refine Reads.expect.bind fun first _ => ?_
  refine (Reads.many (Reads.accept.bind fun comma _ => ?_) Reads.expect).bind fun _ _ =>
    .pure trivial
  cases comma with
  | true => exact Reads.check.bind fun _ _ => .pure trivial
  | false => exact .pure trivial

lemma declares_constantGroup : Declares o part (fun d vars => d.vars = vars) constantGroup := by
  refine .after reads_constantNames.inOrder fun group _ => .after Reads.accept fun typed _ => ?_
  extract_lets rest
  have declared (declared? : Option Ty) :
      Declares o part (fun d vars => d.vars = vars) (rest declared?) := by
    refine .after Reads.expect fun sign _ => ?_
    refine .after (reads_asConstant reads_expression).inPart fun e typed => ?_
    refine .after Reads.expect fun _ _ => ?_
    extract_lets behind
    have valued (e : Expr) (typed : e.WellTyped (o.sight part))
        (same : ∀ declared, declared? = some declared → declared.sameAs e.type) :
        Declares o part (fun d vars => d.vars = vars) (behind e) := by
      refine .after (reads_constantValue typed).inPart fun found shaped => ?_
      split
      · exact fun _ _ _ _ _ h => absurd h fail_ne_ok
      next value =>
        refine .bind (.declareAll fun name _ => ?_) fun _ _ vars none => .pure ?_
        · obtain ⟨shaped, data⟩ := shaped value rfl
          cases declared? with
          | some declared =>
            have same := same declared rfl
            exact ⟨(Value.hasShape_congr same).2 shaped, Ty.isData_of_sameAs same⟩
          | none => exact ⟨shaped, data⟩
        · rw [none, List.append_nil]
    cases declared? with
    | some declared =>
      refine .after (reads_coerce typed declared _ _).inPart fun e ⟨typed, same⟩ => ?_
      exact valued e typed (by simpa using same)
    | none => exact valued e typed nofun
  cases typed with
  | true =>
    exact .after (reads_type.inPart.map fun _ _ => trivial) fun _ (_ : True) => declared _
  | false => exact declared none

lemma seen_storage {sight : Sight} {name : String} {type : Ty} {span : Span}
    (h : sight.place name type) : (Symbol.storage name type span).Seen sight := by
  unfold Symbol.Seen Symbol.storage
  rcases type.isArray with _ | _ <;> exact h

lemma declares_variableGroup : Declares o part (fun d vars => d.vars = vars) variableGroup := by
  refine .after reads_names.inOrder fun group named => .after Reads.expect fun _ _ => ?_
  refine .after reads_type.inPart fun common data => .after Reads.expect fun _ _ => ?_
  let vars := group.map fun name => (name.lexeme, common)
  have stored : ∀ name type, (name, type) ∈ vars → name ≠ resultSlot ∧ type.isData := by
    intro name type among
    obtain ⟨token, from', same⟩ := List.mem_map.1 among
    obtain ⟨rfl, rfl⟩ := Prod.mk.inj same
    exact ⟨named token from', data⟩
  refine .store stored (.bind (.declareAll fun name among => ?_) fun o' _ more none => ?_)
  · refine seen_storage ?_
    change _ ∈ ite _ _ _
    rw [if_pos rfl]
    exact List.mem_append_right _ (List.mem_map_of_mem among)
  · subst none
    exact .pure (List.append_nil _).symm

lemma declares_groups {group : Parse Declarations}
    (h : ∀ o, Declares o part (fun d vars => d.vars = vars) group) :
    Declares o part (fun d vars => d.vars = vars) (groups group) := by
  refine .after Reads.next fun _ _ => (h o).bind fun o' first vars same => ?_
  refine (Declares.many (fun _ => Reads.check) h).bind fun _ rest more same' => .pure ?_
  rw [← same, ← same', List.append_nil]
  rfl

/-! ### Heads of routines -/

lemma reads_parameters : Reads (fitting o part)
    (fun params => ∀ param ∈ params, param.1.lexeme ≠ resultSlot ∧ param.2.isData) parameters := by
  refine Reads.accept.bind fun opens _ => ?_
  cases opens with
  | false => exact .pure (by simp)
  | true =>
    refine Reads.check.bind fun closes _ => ?_
    extract_lets rest
    have closed (groups : List (List (Token × Ty)))
        (fine : ∀ group ∈ groups, ∀ param ∈ group, param.1.lexeme ≠ resultSlot ∧ param.2.isData) :
        Reads (fitting o part)
          (fun params => ∀ param ∈ params, param.1.lexeme ≠ resultSlot ∧ param.2.isData)
          (rest groups) := by
      refine Reads.expect.bind fun _ _ => .pure fun param among => ?_
      obtain ⟨group, from', among⟩ := List.mem_flatten.1 among
      exact fine group from' param among
    cases closes with
    | true => exact closed [] nofun
    | false =>
      refine (Reads.separated ?_).bind closed
      refine reads_names.inOrder.bind fun group named => Reads.expect.bind fun _ _ => ?_
      refine reads_type.inPart.bind fun common data => .pure fun param among => ?_
      obtain ⟨name, from', rfl⟩ := List.mem_map.1 among
      exact ⟨named name from', data⟩

/-- The head of a routine stands behind all that was read before, and before all that is left. -/
lemma routineHead_eq_ok {s t : ParseState} {found : Routine × Token × List (Token × Ty)}
    (fits : Fits o s) (h : routineHead s = (.ok found, t)) :
    ReadsOn s t ∧ Fits.NewHead t found.1 ∧ found.2.1.lexeme = found.1.name ∧
      found.1.params = found.2.2.map fun param => (param.1.lexeme, param.2) := by
  obtain ⟨keyword, s₁, begun, h⟩ := bind_eq_ok.1 h
  obtain ⟨name, s₂, named, h⟩ := bind_eq_ok.1 h
  have on₁ := (next_eq_ok begun).1
  have on₂ := readsOn_expect named
  have fits₁ := fits.stays on₁
  obtain ⟨among, ahead⟩ := expect_ahead fits₁.placed.orderly (by decide) named
  obtain ⟨among', ahead'⟩ := next_ahead fits.placed.orderly (List.ne_nil_of_mem among) begun
  let head (params : List (Token × Ty)) (returns : Option Ty) : Routine :=
    ⟨name.lexeme, params.map fun param => (param.1.lexeme, param.2), returns, [], .skip name.span,
      keyword.span.through name.span⟩
  let good (found : Routine × Token × List (Token × Ty)) : Prop := ∃ params returns,
    (∀ param ∈ params, param.1.lexeme ≠ resultSlot ∧ param.2.isData) ∧
      (∀ type, returns = some type → type.isData) ∧ found = (head params returns, name, params)
  have holds : (fitting o s.enclosing.head?).holds s₂ :=
    ⟨fits₁.stays on₂, by rw [on₂.enclosing, on₁.enclosing]⟩
  obtain ⟨on₃, params, returns, fine, data, rfl⟩ := Reads.found good holds h (by
    refine reads_parameters.bind fun params fine => ?_
    extract_lets behind
    have closed (returns : Option Ty) (data : ∀ type, returns = some type → type.isData) :
        Reads (fitting o s.enclosing.head?) good (behind returns) :=
      Reads.expect.bind fun _ _ => .pure ⟨params, returns, fine, data, rfl⟩
    split
    · refine Reads.expect.bind fun _ _ => ?_
      exact (reads_type.inPart.map fun _ data _ same => Option.some.inj same ▸ data).bind closed
    · exact closed none nofun)
  have on : ReadsOn s t := on₁.trans (on₂.trans on₃)
  refine ⟨on, ⟨?_, data, ⟨_, rfl⟩, rfl, ?_, ?_, ?_, ?_⟩, rfl, rfl⟩
  · intro name type among
    obtain ⟨param, from', same⟩ := List.mem_map.1 among
    obtain ⟨rfl, rfl⟩ := Prod.mk.inj same
    exact fine param from'
  · intro routine old
    exact fits.placed.heads routine (on.routines ▸ old) keyword among'
  · intro id routine found out
    rw [on.routines] at found
    rw [on.enclosing] at out
    exact fits.placed.bodies id routine found out keyword among'
  · exact ahead'.stays (on₂.trans on₃)
  · exact ahead.stays on₃

/-! ### Routines -/

lemma enter_eq_ok {s t : ParseState} {head : Routine} {name : Token} {id : RoutineId}
    (fits : Fits o s) (new : Fits.NewHead s head) (named : name.lexeme = head.name)
    (h : enter head name s = (.ok id, t)) :
    id = s.routines.length ∧ t.routines = s.routines ++ [head] ∧ t.enclosing = s.enclosing ∧
      Fits (o.enter s.enclosing.head? head.signature) t := by
  obtain ⟨_, _, got, h⟩ := bind_eq_ok.1 h
  obtain ⟨rfl, rfl⟩ := get_eq_ok.1 got
  obtain ⟨_, s₁, put, h⟩ := bind_eq_ok.1 h
  obtain ⟨_, s₂, entered, h⟩ := bind_eq_ok.1 h
  obtain ⟨rfl, rfl⟩ := pure_eq_ok.1 h
  obtain ⟨scopes, declared, rfl⟩ := declare_eq_ok put
  rw [modify_eq_ok] at entered
  subst entered
  refine ⟨rfl, rfl, rfl, (fits.enter new).declare declared ?_⟩
  have parent : (o.enter s.enclosing.head? head.signature).parents[s.routines.length]? =
      some s.enclosing.head? := by
    rw [← fits.length]
    exact Outline.parents_enter
  have signed : (o.enter s.enclosing.head? head.signature).signatures[s.routines.length]? =
      some head.signature := by
    rw [← fits.length]
    exact Outline.signatures_enter fits.signatures_length
  generalize o.enter s.enclosing.head? head.signature = entered at parent signed ⊢
  unfold Routine.signature at signed
  unfold Symbol.Seen Routine.type
  rcases returns : head.returns with _ | type <;> rw [returns] at signed <;> rw [named]
  · exact ⟨head.params, rfl, parent, signed⟩
  · exact ⟨head.params, type, rfl, parent, signed⟩

lemma inRoutine_eq_ok {s t : ParseState} {id : RoutineId} {body : Parse α} {a : α}
    (h : inRoutine id body s = (.ok a, t)) : ∃ u,
      body { s with scopes := s.scopes.push, enclosing := id :: s.enclosing } = (.ok a, u) ∧
        { u with scopes := u.scopes.pop, enclosing := u.enclosing.tail } = t := by
  unfold inRoutine at h
  rcases read :
    body { s with scopes := s.scopes.push, enclosing := id :: s.enclosing } with ⟨result, u⟩
  simp only [read] at h
  obtain ⟨rfl, rfl⟩ := Prod.mk.inj h
  exact ⟨u, rfl, rfl⟩

/-- A block stands behind all heads that were read before, and before all tokens that are left. -/
lemma block_eq_ok {s t : ParseState} {body : Stmt} (fits : Fits o s) (h : block s = (.ok body, t)) :
    ReadsOn s t ∧ body.WellTyped (o.sight s.enclosing.head?) ∧
      (∀ routine ∈ s.routines, routine.span.start < body.span.start) ∧ Ahead body.span.start t := by
  obtain ⟨on, typed⟩ := reads_block s body t fits.sees h
  refine ⟨on, typed, ?_⟩
  obtain ⟨first, s₁, begun, h⟩ := bind_eq_ok.1 h
  obtain ⟨among, ahead⟩ := expect_ahead fits.placed.orderly (by decide) begun
  obtain ⟨statements, s₂, inside, h⟩ := bind_eq_ok.1 h
  obtain ⟨last, s₃, ended, h⟩ := bind_eq_ok.1 h
  obtain ⟨rfl, rfl⟩ := pure_eq_ok.1 h
  have sees := fits.sees
  have on₁ := readsOn_expect begun
  have sees₁ := (Sight.known _).stays sees on₁
  have on₂ := (Reads.separated reads_statement s₁ _ _ sees₁ inside).1
  have on₃ := readsOn_expect ended
  refine ⟨fun routine old => fits.placed.heads routine old first among, ?_⟩
  exact ahead.stays (on₂.trans on₃)

section

variable {routine : Parse Unit}
    (hroutine : ∀ o part, Declares o part (fun _ vars => vars = []) routine)

include hroutine

lemma declares_declarationsOf :
    Declares o part (fun d vars => d.vars = vars) (declarationsOf routine) := by
  unfold declarationsOf
  extract_lets more declaration
  have hmore (o : Outline) : Reads (fitting o part) (fun _ => True) more := by
    refine Reads.peek.bind fun token _ => ?_
    split <;> exact .pure trivial
  have hdeclaration (o : Outline) : Declares o part (fun d vars => d.vars = vars) declaration := by
    refine .after Reads.peek fun token _ => ?_
    split
    · exact declares_groups fun _ => declares_constantGroup
    · exact declares_groups fun _ => declares_variableGroup
    · refine (hroutine o part).bind fun _ _ vars none => .pure ?_
      rw [none]
      rfl
  rw [map_eq_pure_bind]
  refine (Declares.many hmore hdeclaration).bind fun _ all vars same => .pure ?_
  rw [List.append_nil]
  exact same

/-- The body of a routine is well typed by what is declared around it, its own locals included. -/
lemma bodyOf_eq_ok {s t : ParseState} {params : List (Token × Ty)}
    {found : List (String × Ty) × Stmt} (fits : Fits o s)
    (stored : ∀ param ∈ params, (param.1.lexeme, param.2) ∈ o.storage s.enclosing.head?)
    (h : bodyOf routine params s = (.ok found, t)) :
    ∃ o', o.Grows o' s.enclosing.head? found.1 ∧ Fits o' t ∧ t.enclosing = s.enclosing ∧
      found.2.WellTyped (o'.sight s.enclosing.head?) ∧
      (∀ routine ∈ t.routines, routine.span.start < found.2.span.start) ∧
      Ahead found.2.span.start t := by
  obtain ⟨_, s₁, put, h⟩ := bind_eq_ok.1 h
  obtain ⟨declarations, s₂, declared, h⟩ := bind_eq_ok.1 h
  obtain ⟨body, s₃, read, h⟩ := bind_eq_ok.1 h
  obtain ⟨rfl, rfl⟩ := pure_eq_ok.1 h
  have seen : ∀ param ∈ params, (Symbol.storage param.1.lexeme param.2 param.1.span).Seen
      (o.own s.enclosing.head?) := fun param among => seen_storage (stored param among)
  obtain ⟨o₁, _, rfl, grows₁, fits₁, same₁⟩ := Declares.declareAll seen s _ s₁ fits rfl put
  obtain ⟨o₂, _, rfl, grows₂, fits₂, same₂⟩ :=
    declares_declarationsOf hroutine s₁ _ s₂ fits₁ (by rw [same₁]) declared
  obtain ⟨on, typed, behind, ahead⟩ := block_eq_ok fits₂ read
  have same : s₂.enclosing = s.enclosing := same₂.trans same₁
  refine ⟨o₂, grows₁.trans grows₂, fits₂.stays on, on.enclosing.trans same, ?_, ?_, ahead⟩
  · rwa [same] at typed
  · rwa [on.routines]

lemma declares_routineOf : Declares o part (fun _ vars => vars = []) (routineOf routine) := by
  intro s u t fits here h
  obtain ⟨⟨head, name, params⟩, s₁, headed, h⟩ := bind_eq_ok.1 h
  obtain ⟨id, s₂, entered, h⟩ := bind_eq_ok.1 h
  obtain ⟨⟨locals, body⟩, s₃, inside, h⟩ := bind_eq_ok.1 h
  obtain ⟨_, s₄, ended, h⟩ := bind_eq_ok.1 h
  obtain ⟨on, new, named, listed⟩ := routineHead_eq_ok fits headed
  have fits₁ := fits.stays on
  obtain ⟨next, routines, same, fits₂⟩ := enter_eq_ok fits₁ new named entered
  have here₁ : s₁.enclosing.head? = part := on.enclosing ▸ here
  rw [here₁] at fits₂
  have old : ∀ id ∈ part, id < o.parents.length := here₁ ▸ fits₁.old
  obtain rfl : id = o.parents.length := next.trans fits₁.length.symm
  let o₁ := o.enter part head.signature
  -- the routine is open while its body is read
  obtain ⟨s', read, left⟩ := inRoutine_eq_ok inside
  have opened : Fits o₁
      { s₂ with scopes := s₂.scopes.push, enclosing := o.parents.length :: s₂.enclosing } := by
    refine fits₂.inside ?_ ?_
    · rw [routines, List.length_append, List.length_singleton, next]
    · rw [same, here₁]
      exact Outline.parents_enter
  obtain ⟨o', grows, fits₃, innermost, typed, behind, ahead⟩ := by
    refine bodyOf_eq_ok hroutine opened (fun param among => ?_) read
    change _ ∈ o₁.storage (some o.parents.length)
    rw [Outline.storage_enter_self]
    change _ ∈ head.params
    rw [listed]
    exact List.mem_map_of_mem among
  -- and closed behind the semicolon
  have on' := readsOn_expect ended
  unfold complete at h
  rw [modify_eq_ok] at h
  have reached : ReadsOn s' { s' with tokens := s₄.tokens } := by
    refine ⟨rfl, ?_, ?_⟩
    · rw [← left] at on'; exact on'.items
    · rw [← left] at on'; exact on'.last
  have closed := (fits₃.stays reached).complete innermost typed behind (ahead.stays reached)
    (fits₁.storage_of_grows fits₃ grows)
  have outer : s'.enclosing.tail = s₂.enclosing := by rw [innermost]; rfl
  refine ⟨o', [], rfl, grows.shut old, ?_, ?_⟩
  · rw [← h, on'.same, ← left, outer]
    exact closed
  · rw [← h]
    change s₄.enclosing = _
    rw [on'.enclosing, ← left]
    exact outer.trans (same.trans on.enclosing)

end

lemma declares_routineWithin :
    ∀ bound, ∀ o part, Declares o part (fun _ vars => vars = []) (routineWithin bound)
  | 0 => fun _ _ => fun _ _ _ _ _ h => absurd h exhausted_ne_ok
  | bound + 1 => fun _ _ => fun s => declares_routineOf (declares_routineWithin bound) s

lemma declares_routine : Declares o part (fun _ vars => vars = []) routine :=
  .after Reads.budget fun bound _ => declares_routineWithin bound o part

/-! ### Programs -/

lemma fits_ofText (text : String) (folding : Bool) : Fits .empty (.ofText text folding) where
  signatures := rfl
  length := rfl
  earlier := nofun
  nested := .nil
  scopes := .cons nofun .nil
  storage := nofun
  housed _ _ := rfl
  returns := nofun
  bodies := nofun
  closed := nofun
  placed := ⟨Tokens.orderly_ofText text, nofun, nofun, .nil, nofun, nofun⟩

/-- **What was read of a whole program fits its outline**, and all its routines are closed. -/
theorem program_eq_ok {text : String} {folding : Bool} {read : Program} {t : ParseState}
    (h : program (.ofText text folding) = (.ok read, t)) :
    ∃ o u, Fits o u ∧ u.enclosing = [] ∧ u.routines = read.routines ∧ o.storage none = read.vars ∧
      read.body.WellTyped (o.sight none) := by
  have fits := fits_ofText text folding
  obtain ⟨_, s₁, begun, h⟩ := bind_eq_ok.1 h
  obtain ⟨_, s₂, named, h⟩ := bind_eq_ok.1 h
  obtain ⟨_, s₃, headed, h⟩ := bind_eq_ok.1 h
  obtain ⟨declarations, s₄, declared, h⟩ := bind_eq_ok.1 h
  obtain ⟨body, s₅, bodied, h⟩ := bind_eq_ok.1 h
  obtain ⟨_, s₆, dot, h⟩ := bind_eq_ok.1 h
  obtain ⟨_, s₇, ended, h⟩ := bind_eq_ok.1 h
  obtain ⟨u, _, got, h⟩ := bind_eq_ok.1 h
  obtain ⟨rfl, rfl⟩ := get_eq_ok.1 got
  obtain ⟨_, _, -, h⟩ := bind_eq_ok.1 h
  obtain ⟨rfl, -⟩ := pure_eq_ok.1 h
  have on := (readsOn_expect begun).trans ((readsOn_expect named).trans (readsOn_expect headed))
  obtain ⟨o, _, rfl, grows, fits₄, same⟩ :=
    declares_declarationsOf (fun _ _ => declares_routine) s₃ _ s₄ (fits.stays on) rfl declared
  obtain ⟨on', typed, -⟩ := block_eq_ok fits₄ bodied
  have on'' := on'.trans ((readsOn_expect dot).trans (readsOn_expect ended))
  have outside : s₄.enclosing = [] := same.trans on.enclosing
  have outside₃ : s₃.enclosing = [] := on.enclosing
  rw [outside] at typed
  rw [outside₃] at grows
  exact ⟨o, s₇, fits₄.stays on'', on''.enclosing.trans outside, rfl, grows.storage, typed⟩

end Parse

end SmallPascal
