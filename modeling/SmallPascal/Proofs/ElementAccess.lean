import SmallPascal.Proofs.Nodes
import SmallPascal.Proofs.Discipline

/-! Elements of nested arrays. What is written at one place is read there and nowhere else: within
the bounds, however wide they are, offsets tell indices apart, and where nothing was written reading
and writing start from the same defaults. Outside the bounds an index is refused before anything is
done with it. -/

namespace SmallPascal

open Steps

/-! ### Places in nested arrays -/

variable {n : Integer}

lemma offset_ne {m low : Integer} (hn : low.toInt ≤ n.toInt) (hm : low.toInt ≤ m.toInt)
    (ne : n ≠ m) :
    (n.toInt - low.toInt).toNat ≠ (m.toInt - low.toInt).toNat := by
  intro same
  exact ne (Int64.toInt_inj.1 (by omega))

/-- Indices within the bounds of nested arrays of the first type lead to elements of the last
type. -/
inductive Ty.Admits : Ty → List Integer → Ty → Prop
  | here {type : Ty} : type.Admits [] type
  | into {low high n : Integer} {item last : Ty} {ns : List Integer} : low.toInt ≤ n.toInt →
    n.toInt ≤ high.toInt → item.Admits ns last → (Ty.array low high item).Admits (n :: ns) last

/-- The offsets of indices into nested arrays, each with the type of what it leads to. -/
def Ty.places : Ty → List Integer → List (Nat × Ty)
  | _, [] => []
  | .array low _ item, n :: ns => ((n.toInt - low.toInt).toNat, item) :: item.places ns
  | _, _ :: _ => []

/-- What was written at the indices into a nested array of the type, if anything was. -/
def Value.stored? : Ty → List Integer → Value → Option Value
  | _, [], v => some v
  | .array low _ item, n :: ns, .array elements =>
    (elements.get? (n.toInt - low.toInt).toNat).bind (stored? item ns)
  | _, _ :: _, _ => none

@[simp] lemma Ty.places_nil (type : Ty) : type.places [] = [] := by cases type <;> rfl

@[simp] lemma Value.stored?_nil (type : Ty) (v : Value) : v.stored? type [] = some v := by
  cases type <;> rfl

section

variable {type last : Ty} {ns : List Integer}

lemma Ty.Admits.leads (h : type.Admits ns last) : type.Leads ((type.places ns).map (·.2)) last := by
  induction h with
  | here => rw [places_nil]; exact .here
  | into _ _ _ ih => exact .into ih

lemma Value.stored?_default (h : type.Admits ns last) :
    (type.default.stored? type ns).getD last.default = last.default := by
  cases h with
  | here => rw [stored?_nil]; rfl
  | into => rfl

lemma Value.read?_places {v : Value} (h : type.Admits ns last)
    (shaped : ns ≠ [] → v.HasShape type) :
    v.read? (type.places ns) = some ((v.stored? type ns).getD last.default) := by
  induction h generalizing v with
  | here => rw [Ty.places_nil, stored?_nil]; rfl
  | @into low high n item last ns _ _ h ih =>
    obtain ⟨elements, rfl, items⟩ := hasShape_array.1 (shaped (List.cons_ne_nil _ _))
    unfold Ty.places read? stored?
    dsimp only
    rcases found : elements.get? (n.toInt - low.toInt).toNat with _ | w
    · refine (ih ?_).trans (congrArg some (stored?_default h))
      intro more
      cases h with
      | here => exact absurd rfl more
      | into => trivial
    · exact ih fun _ => items.get? found

/-- Writing at one place keeps what is read at a place that lies neither above nor below it. -/
lemma Value.read?_write_of_apart {ms : List Integer} {last' : Ty} {new target : Value}
    (h : type.Admits ns last) (h' : type.Admits ms last') (below : ¬ ns <+: ms)
    (above : ¬ ms <+: ns) :
    (write (type.places ns) new target).1.read? (type.places ms) = target.read?
    (type.places ms) := by
  induction h generalizing ms target with
  | here => exact absurd List.nil_prefix below
  | @into low high n item last ns hn _ h ih =>
    cases h' with
    | here => exact absurd List.nil_prefix above
    | @into _ _ m _ _ ms hm _ h' =>
      cases target with
      | array elements =>
        unfold Ty.places write read?
        dsimp only
        rw [Elements.get?_insert]
        rcases eq_or_ne n m with rfl | ne
        · -- the paths part further in
          rw [if_pos rfl]
          refine ih h' (fun before => below ?_) fun before => above ?_ <;>
            exact List.cons_prefix_cons.2 ⟨rfl, before⟩
        · rw [if_neg (offset_ne hn hm ne)]
      | _ => rfl

end

/-! ### Paths of steps -/

/-- The steps go into nested arrays of the first type and lead to elements of the last, and their
indices come to integers within the bounds, while lines are written from the first output to the
last. -/
inductive PathComes (context : Context) (store : Store) :
    Ty → List IndexStep → List Integer → Ty → Output → Output → Prop
  | here {type : Ty} {output : Output} : PathComes context store type [] [] type output output
  | into {step : IndexStep} {path : List IndexStep} {n : Integer} {ns : List Integer} {last : Ty}
    {output output₁ output₂ : Output} :
    step.index.eval context store output = (.ok (.integer n), output₁) → step.low.toInt ≤ n.toInt →
    n.toInt ≤ step.high.toInt → PathComes context store step.item path ns last output₁ output₂ →
    PathComes context store (.array step.low step.high step.item) (step :: path) (n :: ns) last
      output output₂

/-- The last expression indexes the first one along the steps. -/
inductive Expr.Indexed : Expr → List IndexStep → Expr → Prop
  | here {array : Expr} : array.Indexed [] array
  | into {array element : Expr} {step : IndexStep} {path : List IndexStep} {span : Span} :
    (Expr.index array step.index step.low step.high step.item span).Indexed path element →
    array.Indexed (step :: path) element

section

variable {context : Context} {store : Store} {type last : Ty} {path : List IndexStep}
    {ns : List Integer}
  {output output₁ output₂ : Output}

lemma PathComes.admits (h : PathComes context store type path ns last output output₁) :
    type.Admits ns last := by
  induction h with
  | here => exact .here
  | into _ above below _ ih => exact .into above below ih

lemma offset_inside {step : IndexStep} (above : step.low.toInt ≤ n.toInt)
    (below : n.toInt ≤ step.high.toInt) :
    Eval.ofExcept step.index.span (Value.offset step.low step.high (.integer n)) output =
      (.ok (n.toInt - step.low.toInt).toNat, output) := by
  change Eval.ofExcept _ (elementOffset n step.low step.high) output = _
  rw [elementOffset_eq, if_neg (by omega)]
  rfl

lemma PathComes.offsets_inside (h : PathComes context store type path ns last output output₁) :
    offsets context store path output = (.ok (type.places ns), output₁) := by
  induction h with
  | here => rw [Ty.places_nil]; rfl
  | into index above below _ ih =>
    unfold offsets
    rw [bind_of_ok index, bind_of_ok (offset_inside above below), bind_of_ok ih]
    rfl

lemma PathComes.eval_inside (h : PathComes context store type path ns last output₁ output₂)
    {array element : Expr} (indexed : array.Indexed path element) {v w : Value}
    (evaluated : array.eval context store output = (.ok v, output₁))
    (there : v.read? (type.places ns) = some w) :
    element.eval context store output = (.ok w, output₂) := by
  induction h generalizing array v with
  | here =>
    cases indexed
    rw [Ty.places_nil] at there
    obtain rfl : v = w := Option.some.inj there
    exact evaluated
  | @into step path n ns last output₁ output₂ output₃ index above below _ ih =>
    cases indexed with
    | @into _ _ _ _ span indexed =>
      cases v with
      | array elements =>
        refine ih indexed ?_ there
        unfold Expr.eval
        rw [bind_of_ok evaluated, bind_of_ok index, bind_of_ok (offset_inside above below)]
        rfl
      | _ => cases there

lemma Expr.Indexed.eval_error {array element : Expr} (indexed : array.Indexed path element)
    {stop : Stop} (stopped : array.eval context store output = (.error stop, output₁)) :
    element.eval context store output = (.error stop, output₁) := by
  induction indexed with
  | here => exact stopped
  | into _ ih =>
    refine ih ?_
    unfold Expr.eval
    rw [bind_apply, stopped]

lemma Expr.Indexed.split {array element : Expr} {before after : List IndexStep}
    (indexed : array.Indexed (before ++ after) element) :
    ∃ middle, array.Indexed before middle ∧ middle.Indexed after element := by
  induction before generalizing array with
  | nil => exact ⟨array, .here, indexed⟩
  | cons step before ih =>
    cases indexed with
    | into indexed =>
      obtain ⟨middle, first, second⟩ := ih indexed
      exact ⟨middle, .into first, second⟩

/-! ### An index outside its bounds -/

variable {step : IndexStep} {before after : List IndexStep}
  (h : PathComes context store type before ns (.array step.low step.high step.item) output output₁)
  (index : step.index.eval context store output₁ = (.ok (.integer n), output₂))
  (outside : n.toInt < step.low.toInt ∨ step.high.toInt < n.toInt)

include outside in
lemma offset_outside :
    Eval.ofExcept step.index.span (Value.offset step.low step.high (.integer n)) output =
      (.error (.fault (.outOfBounds n step.low step.high) step.index.span), output) := by
  change Eval.ofExcept _ (elementOffset n step.low step.high) output = _
  rw [elementOffset_eq, if_pos outside]
  rfl

include h index outside

lemma PathComes.offsets_outside : offsets context store (before ++ step :: after) output =
    (.error (.fault (.outOfBounds n step.low step.high) step.index.span), output₂) := by
  generalize goal : Ty.array step.low step.high step.item = last at h
  induction h with
  | here =>
    rw [List.nil_append, offsets, bind_of_ok index, bind_apply, offset_outside outside]
  | into reached above below _ ih =>
    rw [List.cons_append, offsets, bind_of_ok reached, bind_of_ok (offset_inside above below),
      bind_apply,
      ih index goal]

lemma PathComes.eval_outside {array element : Expr}
    (indexed : array.Indexed (before ++ step :: after) element) {v : Value}
    (evaluated : array.eval context store output = (.ok v, output)) (shaped : v.HasShape type) :
    element.eval context store output =
      (.error (.fault (.outOfBounds n step.low step.high) step.index.span), output₂) := by
  obtain ⟨middle, inside, beyond⟩ := indexed.split
  have reached := h.eval_inside inside evaluated (Value.read?_places h.admits fun _ => shaped)
  cases beyond with
  | into beyond =>
    refine beyond.eval_error ?_
    unfold Expr.eval
    rw [bind_of_ok reached, bind_of_ok index, bind_apply, offset_outside outside]

end

/-! ### Writing and reading -/

/-- Indexing the name along any path into the type that comes to the indices yields the value. -/
def Store.Reads (store : Store) (name : String) (type : Ty) (ns : List Integer)
    (item : Ty) (v : Value) : Prop :=
  ∀ context path output output', PathComes context store type path ns item output output' →
    ∀ nameType span element, (Expr.var name nameType span).Indexed path element →
      element.eval context store output = (.ok v, output')

section

variable {name : String} {type item : Ty} {ns : List Integer} {target v : Value}

lemma Expr.eval_var {store : Store} (there : store.get? name = some target) (context : Context)
    (nameType : Ty) (span : Span) (output : Output) :
    (Expr.var name nameType span).eval context store output = (.ok target, output) := by
  unfold Expr.eval
  rw [there]
  rfl

lemma Store.reads {store : Store} (there : store.get? name = some target)
    (read : type.Admits ns item → target.read? (type.places ns) = some v) :
    store.Reads name type ns item v := by
  intro context path output output' comes nameType span element indexed
  exact comes.eval_inside indexed (Expr.eval_var there context nameType span output)
    (read comes.admits)

lemma PathComes.exec_assignElement {context : Context} {m : Machine} {path : List IndexStep}
    {value : Expr}
    {output output' : Output} (comes : PathComes context m.store type path ns item m.output output)
    (evaluated : value.eval context m.store output = (.ok v, output'))
    (there : m.store.get? name = some target)
    (accepted : (Value.write (type.places ns) v target).2 = none)
    (bound : Nat) (span : Span) : (Stmt.assignElement name path value span).exec context bound m =
      (.ok (), ⟨m.store.set name (Value.write (type.places ns) v target).1, output'⟩) := by
  have placed : Exec.eval (fun store => offsets context store path) m =
      (.ok (type.places ns), ⟨m.store, output⟩) := Exec.eval_of comes.offsets_inside
  have valued : Exec.eval (fun store => value.eval context store) ⟨m.store, output⟩ =
      (.ok v, ⟨m.store, output'⟩) := Exec.eval_of evaluated
  rw [Stmt.exec, bind_of_ok placed, bind_of_ok valued, Exec.writeElement_apply]
  dsimp only
  rw [there]
  dsimp only
  rw [accepted]

/-- **Elements keep what is written to them.** Suppose that a variable has a value of a nested array
type. After a value of the item type has been written at indices within the bounds, it is read
there, and at indices that part from these, what was read before, which is the default of the item
type where nothing has been written. If an index is not within its bounds, and the ones before it
are, reading and writing stop with the fault that says so. -/
theorem element_access {m : Machine} (there : m.store.get? name = some target)
    (shaped : target.HasShape type) (context : Context) (bound : Nat) :
    (∀ path ns item output, PathComes context m.store type path ns item m.output output →
      ∀ value v output', value.eval context m.store output = (.ok v, output') →
      v.HasShape item → ∀ span,
      ∃ store : Store,
        (Stmt.assignElement name path value span).exec context bound m =
        (.ok (), ⟨store, output'⟩) ∧
        store.Reads name type ns item v ∧
        ∀ ms item', ¬ ns <+: ms → ¬ ms <+: ns →
          m.store.Reads name type ms item' ((target.stored? type ms).getD item'.default) ∧
          store.Reads name type ms item' ((target.stored? type ms).getD item'.default)) ∧
    ∀ before step after ns output n output',
      PathComes context m.store type before ns (.array step.low step.high step.item)
      m.output output →
      step.index.eval context m.store output = (.ok (.integer n), output') →
      n.toInt < step.low.toInt ∨ step.high.toInt < n.toInt →
      (∀ nameType span element,
        (Expr.var name nameType span).Indexed (before ++ step :: after) element →
        element.eval context m.store m.output =
          (.error (.fault (.outOfBounds n step.low step.high) step.index.span), output')) ∧
      ∀ value span,
        (Stmt.assignElement name (before ++ step :: after) value span).exec context bound m =
        (.error (.fault (.outOfBounds n step.low step.high) step.index.span),
          ⟨m.store, output'⟩) := by
  constructor
  · intro path ns item output comes value v output' evaluated hv span
    have admits := comes.admits
    obtain ⟨accepted, -⟩ := Value.HasShape.write admits.leads (fun _ => shaped) hv
    have now : (m.store.set name (Value.write (type.places ns) v target).1).get? name = _ :=
      Store.get?_set_self _ _ _
    refine ⟨_, comes.exec_assignElement evaluated there accepted bound span,
      Store.reads now fun _ => Value.read?_write accepted, fun ms item' below above => ?_⟩
    have before (h : type.Admits ms item') := Value.read?_places h fun _ => shaped
    refine ⟨Store.reads there before, Store.reads now fun h => ?_⟩
    rw [Value.read?_write_of_apart admits h below above]
    exact before h
  · intro before step after ns output n output' comes index outside
    constructor
    · intro nameType span element indexed
      exact comes.eval_outside index outside indexed
        (Expr.eval_var there context nameType span _) shaped
    · intro value span
      have stopped : Exec.eval (fun store => offsets context store (before ++ step :: after)) m =
          (.error (.fault (.outOfBounds n step.low step.high) step.index.span),
            ⟨m.store, output'⟩) :=
        Exec.eval_of (comes.offsets_outside index outside)
      rw [Stmt.exec, bind_apply, stopped]

end

def IndexStep.literal (n low high : Integer) (item : Ty) : IndexStep :=
  ⟨.literal (.integer n) .integer .nowhere, low, high, item⟩

lemma PathComes.literal {context : Context} {store : Store} {n low high : Integer} {item last : Ty}
    {path : List IndexStep} {ns : List Integer} {output output' : Output}
    (above : low.toInt ≤ n.toInt)
    (below : n.toInt ≤ high.toInt)
    (rest : PathComes context store item path ns last output output') :
    PathComes context store (.array low high item) (.literal n low high item :: path) (n :: ns) last
      output output' :=
  @PathComes.into context store (.literal n low high item) path n ns last output output output' rfl
    above below rest

/-- An array over all integers, of arrays of three integers. -/
theorem element_access_widest :
    let row : Ty := .array 1 3 .integer
    let table : Ty := .array Int64.minValue Int64.maxValue row
    let m : Machine := ⟨⟨[("a", .array .nil)]⟩, #[]⟩
    let path (i j : Integer) : List IndexStep :=
      [.literal i Int64.minValue Int64.maxValue row, .literal j 1 3 .integer]
    let write (i j : Integer) : Stmt :=
      .assignElement "a" (path i j) (.literal (.integer 5) .integer .nowhere) .nowhere
    let read (i j : Integer) : Expr :=
      .index (.index (.var "a" table .nowhere) (.literal (.integer i) .integer .nowhere)
        Int64.minValue Int64.maxValue row .nowhere)
        (.literal (.integer j) .integer .nowhere) 1 3 .integer
        .nowhere
    (∃ store : Store, (write Int64.maxValue 2).exec .empty 0 m = (.ok (), ⟨store, #[]⟩) ∧
      (read Int64.maxValue 2).eval .empty store #[] = (.ok (.integer 5), #[]) ∧
      (read Int64.minValue 2).eval .empty store #[] = (.ok (.integer 0), #[])) ∧
    (read Int64.minValue 4).eval .empty m.store #[] =
      (.error (.fault (.outOfBounds 4 1 3) .nowhere), #[]) ∧
    (write Int64.minValue 4).exec .empty 0 m =
      (.error (.fault (.outOfBounds 4 1 3) .nowhere), m) := by
  intro row table m path write read
  have cells (store : Store) (i : Integer) :
      PathComes .empty store table (path i 2) [i, 2] .integer #[] #[] :=
    .literal (Int64.minValue_le_toInt i) (Int64.toInt_le i) (.literal (by decide) (by decide) .here)
  obtain ⟨written, refused⟩ := @element_access "a" table (.array .nil) m rfl trivial .empty 0
  obtain ⟨store, ran, same, others⟩ := written _ _ _ _ (cells m.store Int64.maxValue)
    (.literal (.integer 5) .integer .nowhere) (.integer 5) _ rfl trivial .nowhere
  have outer :
    PathComes .empty m.store table [.literal Int64.minValue Int64.minValue Int64.maxValue row]
      [Int64.minValue] row #[] #[] := .literal (by decide) (by decide) .here
  obtain ⟨unread, unwritten⟩ := refused _ (.literal 4 1 3 .integer) [] _ _ 4 _ outer rfl (by decide)
  have apart := (others [Int64.minValue, 2] .integer (by decide) (by decide)).2
  refine ⟨⟨store, ran, ?_, ?_⟩, ?_, ?_⟩
  · exact same _ _ _ _ (cells store Int64.maxValue) _ _ _ (.into (.into .here))
  · exact apart _ _ _ _ (cells store Int64.minValue) _ _ _ (.into (.into .here))
  · exact unread _ _ _ (.into (.into .here))
  · exact unwritten _ _

end SmallPascal
