import SmallPascal.Proofs.ElementAccess

/-! Assignments to elements that fail. All checks are made before anything is written: each index,
followed at once by its bounds, then the value, and last the name. So an assignment fails with the
first check that fails, and the store is as it was, even where arrays on the way to the element had
still to be made. -/

namespace SmallPascal

open Steps

/-- What is stored along the offsets is an array at every level but the last. -/
def Value.Opens : List Nat → Value → Prop
  | [], _ => True
  | offset :: rest, .array elements => ∀ v, elements.get? offset = some v → v.Opens rest
  | _ :: _, _ => False

lemma Value.opens_default {type : Ty} (array : type.isArray) (offsets : List Nat) :
    type.default.Opens offsets := by
  cases type with
  | array low high item =>
    cases offsets with
    | nil => trivial
    | cons => nofun
  | _ => cases array

/-- Writing along a path is not refused if only arrays are stored on the way, and only arrays are
made. -/
lemma Value.write_accepted {path : List (Nat × Ty)} {new target : Value}
    (made : ∀ place ∈ path.dropLast, place.2.isArray) (h : target.Opens (path.map (·.1))) :
    (write path new target).2 = none := by
  induction path generalizing target with
  | nil => rfl
  | cons place rest ih =>
    obtain ⟨offset, item⟩ := place
    cases target with
    | array elements =>
      unfold write
      dsimp only
      cases rest with
      | nil => rfl
      | cons next rest =>
        have array : item.isArray := made (offset, item) List.mem_cons_self
        refine ih (fun place among => made place (List.mem_cons_of_mem _ among)) ?_
        rcases found : elements.get? offset with _ | v
        · exact opens_default array _
        · exact h v found
    | _ => cases h

/-! ### The checks in their order -/

section

variable (context : Context) (store : Store) (name : String) (value : Expr) (span : Span)

/-- Of the checks that an assignment to an element makes, one after the other, the first that fails:
at an index that has no value, or whose value is no integer or not within the bounds, the indices in
front of it being good; at a value that cannot be computed; or at a name that has no value. Each
check begins with the lines that were written by the ones before. -/
inductive FirstFailure : List IndexStep → Output → Stop → Output → Prop
  | index {step : IndexStep} {rest : List IndexStep} {output output' : Output} {stop : Stop} :
    step.index.eval context store output = (.error stop, output') →
    FirstFailure (step :: rest) output stop output'
  | sort {step : IndexStep} {rest : List IndexStep} {output output' : Output} {v : Value} :
    step.index.eval context store output = (.ok v, output') → v.tag ≠ .integer →
    FirstFailure (step :: rest) output (.fault (.notAnInteger v.tag) step.index.span) output'
  | bounds {step : IndexStep} {rest : List IndexStep} {output output' : Output} {n : Integer} :
    step.index.eval context store output = (.ok (.integer n), output') →
    n.toInt < step.low.toInt ∨ step.high.toInt < n.toInt →
    FirstFailure (step :: rest) output (.fault (.outOfBounds n step.low step.high) step.index.span)
      output'
  | later {step : IndexStep} {rest : List IndexStep} {output output₁ output₂ : Output} {n : Integer}
    {stop : Stop} : step.index.eval context store output = (.ok (.integer n), output₁) →
    step.low.toInt ≤ n.toInt → n.toInt ≤ step.high.toInt → FirstFailure rest output₁ stop output₂ →
    FirstFailure (step :: rest) output stop output₂
  | value {output output' : Output} {stop : Stop} :
    value.eval context store output = (.error stop, output') → FirstFailure [] output stop output'
  | target {output output' : Output} {v : Value} :
    value.eval context store output = (.ok v, output') → store.get? name = none →
    FirstFailure [] output (.fault (.undefined name) span) output'

end

variable {context : Context} {store : Store} {name : String} {value : Expr} {span : Span}
  {path : List IndexStep} {output output' : Output} {stop : Stop}

lemma offsets_cons {step : IndexStep} {rest : List IndexStep} {n : Integer} {output₁ : Output}
    (index : step.index.eval context store output = (.ok (.integer n), output₁))
    (above : step.low.toInt ≤ n.toInt) (below : n.toInt ≤ step.high.toInt) :
    offsets context store (step :: rest) output =
      (do return ((n.toInt - step.low.toInt).toNat, step.item) :: (← offsets context store rest)
        : Eval _) output₁ := by
  rw [offsets, bind_of_ok index, bind_of_ok (offset_inside above below)]

lemma offsets_items {found : List (Nat × Ty)}
    (h : offsets context store path output = (.ok found, output')) :
    found.map (·.2) = path.map (·.item) := by
  induction path generalizing found output output' with
  | nil =>
    obtain ⟨rfl, -⟩ := pure_eq_ok.1 h
    rfl
  | cons step rest ih =>
    obtain ⟨v, output₁, -, h⟩ := bind_eq_ok.1 h
    obtain ⟨offset, output₂, -, h⟩ := bind_eq_ok.1 h
    obtain ⟨more, output₃, others, h⟩ := bind_eq_ok.1 h
    obtain ⟨rfl, -⟩ := pure_eq_ok.1 h
    rw [List.map_cons, ih others, List.map_cons]

/-- Writing where the indices of a path lead is not refused if all items on the way are arrays. -/
lemma write_offsets {found : List (Nat × Ty)} {new target : Value}
    (items : ∀ step ∈ path.dropLast, step.item.isArray)
    (placed : offsets context store path output = (.ok found, output'))
    (h : target.Opens (found.map (·.1))) : (Value.write found new target).2 = none := by
  refine Value.write_accepted (fun place among => ?_) h
  have listed : place.2 ∈ path.dropLast.map (·.item) := by
    rw [List.map_dropLast, ← offsets_items placed, ← List.map_dropLast]
    exact List.mem_map_of_mem among
  obtain ⟨step, among, same⟩ := List.mem_map.1 listed
  exact same ▸ items step among

namespace FirstFailure

/-- A failure at an index leaves no offsets; one behind them comes after all of these. -/
lemma offsets_stopped (h : FirstFailure context store name value span path output stop output') :
    offsets context store path output = (.error stop, output') ∨
      ∃ found output₁, offsets context store path output = (.ok found, output₁) ∧
        FirstFailure context store name value span [] output₁ stop output' := by
  induction h with
  | index failed =>
    left
    rw [offsets, bind_apply, failed]
  | @sort _ _ _ _ v index other =>
    left
    rw [offsets, bind_of_ok index, bind_apply]
    cases v with
    | integer => exact absurd rfl other
    | _ => rfl
  | bounds index outside =>
    left
    rw [offsets, bind_of_ok index, bind_apply, offset_outside outside]
  | later index above below _ ih =>
    rw [offsets_cons index above below, bind_apply]
    rcases ih with stopped | ⟨found, output₁, passed, failed⟩
    · left
      rw [stopped]
    · right
      rw [passed]
      exact ⟨_, output₁, rfl, failed⟩
  | value failed => exact .inr ⟨[], _, rfl, .value failed⟩
  | target valued missing => exact .inr ⟨[], _, rfl, .target valued missing⟩

/-- Where the offsets of a path cannot be found, one of its indices is the first to fail; where they
can, what fails behind them is. -/
lemma of_offsets (context : Context) (store : Store) (name : String) (value : Expr) (span : Span)
    (path : List IndexStep) (output : Output) :
    match offsets context store path output with
    | (.error stop, output') => FirstFailure context store name value span path output stop output'
    | (.ok _, output₁) => ∀ stop output',
      FirstFailure context store name value span [] output₁ stop output' →
      FirstFailure context store name value span path output stop output' := by
  induction path generalizing output with
  | nil => exact fun _ _ => id
  | cons step rest ih =>
    rcases index : step.index.eval context store output with ⟨stop | v, output₁⟩
    · rw [offsets, bind_apply, index]
      exact .index index
    · by_cases other : v.tag = .integer
      · cases v with
        | integer n =>
          by_cases outside : n.toInt < step.low.toInt ∨ step.high.toInt < n.toInt
          · rw [offsets, bind_of_ok index, bind_apply, offset_outside outside]
            exact .bounds index outside
          · have above : step.low.toInt ≤ n.toInt := by omega
            have below : n.toInt ≤ step.high.toInt := by omega
            have others := ih output₁
            rw [offsets_cons index above below, bind_apply]
            rcases placed : offsets context store rest output₁ with ⟨stop | found, output₂⟩ <;>
              rw [placed] at others
            · exact .later index above below others
            · exact fun stop output' failed => .later index above below (others stop output' failed)
        | _ => cases other
      · have refused : Eval.ofExcept step.index.span (v.offset step.low step.high) output₁ =
            (.error (.fault (.notAnInteger v.tag) step.index.span), output₁) := by
          cases v with
          | integer => exact absurd rfl other
          | _ => rfl
        rw [offsets, bind_of_ok index, bind_apply, refused]
        exact .sort index other

end FirstFailure

/-! ### Assignments -/

lemma Stmt.exec_assignElement (bound : Nat) (m : Machine) :
    (Stmt.assignElement name path value span).exec context bound m =
      match offsets context m.store path m.output with
      | (.error stop, output) => (.error stop, ⟨m.store, output⟩)
      | (.ok found, output) =>
        match value.eval context m.store output with
        | (.error stop, output) => (.error stop, ⟨m.store, output⟩)
        | (.ok v, output) => Exec.writeElement name found v span ⟨m.store, output⟩ := by
  rw [Stmt.exec, bind_apply]
  rcases placed : offsets context m.store path m.output with ⟨stop | found, output⟩
  · rw [Exec.eval_of placed]
  · rw [Exec.eval_of placed]
    dsimp only
    rw [bind_apply]
    rcases valued : value.eval context m.store output with ⟨stop | v, output'⟩
    · rw [@Exec.eval_of _ _ ⟨m.store, output⟩ _ _ valued]
    · rw [@Exec.eval_of _ _ ⟨m.store, output⟩ _ _ valued]

lemma FirstFailure.exec {m : Machine}
    (h : FirstFailure context m.store name value span path m.output stop output') (bound : Nat) :
    (Stmt.assignElement name path value span).exec context bound m =
      (.error stop, ⟨m.store, output'⟩) := by
  rw [Stmt.exec_assignElement]
  rcases h.offsets_stopped with stopped | ⟨found, output₁, passed, failed⟩
  · rw [stopped]
  · rw [passed]
    dsimp only
    cases failed with
    | value failed => rw [failed]
    | target valued missing =>
      rw [valued]
      dsimp only
      rw [Exec.writeElement_apply, missing]

/-- **An assignment to an element that fails has changed nothing.** Suppose that all items on the
way are arrays, and so is what the name has along the path, as far as there is anything. Then the
assignment fails just with the first of its checks that fails, in the order of the indices, each
with its bounds, the value and the name, and leaves the store as it was. -/
theorem Stmt.failing_write {m m' : Machine} (items : ∀ step ∈ path.dropLast, step.item.isArray)
    (opens : ∀ target found output, m.store.get? name = some target →
      offsets context m.store path m.output = (.ok found, output) → target.Opens (found.map (·.1)))
    (bound : Nat) :
    (Stmt.assignElement name path value span).exec context bound m = (.error stop, m') ↔
      m'.store = m.store ∧
        FirstFailure context m.store name value span path m.output stop m'.output := by
  obtain ⟨store', output'⟩ := m'
  constructor
  · intro failed
    have first := FirstFailure.of_offsets context m.store name value span path m.output
    rw [exec_assignElement] at failed
    rcases placed : offsets context m.store path m.output with ⟨stop' | found, output₁⟩ <;>
      rw [placed] at failed first <;> dsimp only at failed first
    · cases failed
      exact ⟨rfl, first⟩
    · rcases valued : value.eval context m.store output₁ with ⟨stop' | v, output₂⟩ <;>
        rw [valued] at failed <;> dsimp only at failed
      · cases failed
        exact ⟨rfl, first _ _ (.value valued)⟩
      · rw [Exec.writeElement_apply] at failed
        dsimp only at failed
        rcases there : m.store.get? name with _ | target <;> rw [there] at failed <;>
          dsimp only at failed
        · cases failed
          exact ⟨rfl, first _ _ (.target valued there)⟩
        · -- every check has passed, and then nothing refuses the value
          rw [write_offsets items placed (opens target found output₁ there placed)] at failed
          cases failed
  · rintro ⟨rfl, first⟩
    exact first.exec bound

/-- A value that cannot be computed, for an element of a row that has not been made. -/
theorem Stmt.failing_write_unmade :
    let row : Ty := .array 1 3 .integer
    let m : Machine := ⟨⟨[("a", .array .nil)]⟩, #[]⟩
    let path : List IndexStep := [.literal 7 0 9 row, .literal 2 1 3 .integer]
    let value : Expr := .binary .intDiv (.literal (.integer 1) .integer .nowhere)
      (.literal (.integer 0) .integer .nowhere) .integer .nowhere
    (∀ step ∈ path.dropLast, step.item.isArray) ∧
      (∀ target found output, m.store.get? "a" = some target →
        offsets .empty m.store path m.output = (.ok found, output) →
        target.Opens (found.map (·.1))) ∧
      (Stmt.assignElement "a" path value .nowhere).exec .empty 0 m =
        (.error (.fault .divisionByZero .nowhere), m) := by
  intro row m path value
  have items : ∀ step ∈ path.dropLast, step.item.isArray := by
    intro step among
    obtain rfl : step = .literal 7 0 9 row := List.mem_singleton.1 among
    rfl
  have opens : ∀ target found output, m.store.get? "a" = some target →
      offsets .empty m.store path m.output = (.ok found, output) →
      target.Opens (found.map (·.1)) := by
    intro target found output there placed
    obtain rfl : Value.array .nil = target := Option.some.inj there
    obtain rfl : [(7, row), (1, .integer)] = found := Except.ok.inj (congrArg Prod.fst placed)
    exact nofun
  have failed : FirstFailure .empty m.store "a" value .nowhere path m.output
      (.fault .divisionByZero .nowhere) m.output :=
    .later (n := 7) rfl (by decide) (by decide)
      (.later (n := 2) rfl (by decide) (by decide) (.value rfl))
  exact ⟨items, opens, (failing_write items opens 0).2 ⟨rfl, failed⟩⟩

end SmallPascal
