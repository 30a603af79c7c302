import SmallPascal.Proofs.Handing
import SmallPascal.Proofs.Visits

/-! What an activation has in its store. A call copies the caller's store, and is made only from
inside the part that declares the routine; so all names of the parts around a routine are there,
each with a value that some declaration has handed down. This carries through calls that nest
however deep. -/

namespace SmallPascal

open Steps

/-! ### Setting many names -/

namespace Store

/-- A name that is set among others has one of the values that are given for it, and any other name
keeps what it had. -/
lemma get?_setAll (entries : List (String × Value)) (store : Store) (name : String) :
    (∃ value, (name, value) ∈ entries ∧ (store.setAll entries).get? name = some value) ∨
      (∀ value, (name, value) ∉ entries) ∧ (store.setAll entries).get? name = store.get? name := by
  induction entries generalizing store with
  | nil => exact .inr ⟨by simp, rfl⟩
  | cons entry rest ih =>
    rw [setAll_cons]
    obtain ⟨value, among, found⟩ | ⟨absent, found⟩ := ih (store.set entry.1 entry.2)
    · exact .inl ⟨value, List.mem_cons_of_mem _ among, found⟩
    · rw [get?_set] at found
      by_cases e : entry.1 = name
      · subst e
        rw [if_pos rfl] at found
        exact .inl ⟨entry.2, List.mem_cons_self, found⟩
      · rw [if_neg e] at found
        refine .inr ⟨fun value among => ?_, found⟩
        rcases List.mem_cons.1 among with rfl | later
        · exact e rfl
        · exact absent value later

/-- Names that are given defaults have a default of one of the types that are given for them. -/
lemma get?_setDefaults (places : List (String × Ty)) (store : Store) (name : String) :
    (∃ type, (name, type) ∈ places ∧ (store.setDefaults places).get? name = some type.default) ∨
      (∀ type, (name, type) ∉ places) ∧ (store.setDefaults places).get? name = store.get? name := by
  obtain ⟨value, among, found⟩ | ⟨absent, found⟩ :=
    get?_setAll (places.map fun place => (place.1, place.2.default)) store name
  · obtain ⟨⟨_, type⟩, declared, same⟩ := List.mem_map.1 among
    obtain ⟨rfl, rfl⟩ := Prod.mk.inj same
    exact .inl ⟨type, declared, found⟩
  · exact .inr ⟨fun type among => absent _ (List.mem_map.2 ⟨(name, type), among, rfl⟩), found⟩

end Store

namespace Discipline

lemma Fills.mem_zip {d : Discipline} {values : List Value} {params : Params}
    (h : d.Fills values params) {name : String} :
    (∀ value, (name, value) ∈ (params.map (·.1)).zip values →
      ∃ type, (name, type) ∈ params ∧ d.holds type value) ∧
    ∀ type, (name, type) ∈ params → ∃ value, (name, value) ∈ (params.map (·.1)).zip values := by
  induction h with
  | nil => simp
  | @cons value param values params holds _ ih =>
    rw [List.map_cons, List.zip_cons_cons]
    constructor
    · intro value' among
      rcases List.mem_cons.1 among with same | later
      · obtain ⟨rfl, rfl⟩ := Prod.mk.inj same
        exact ⟨param.2, List.mem_cons_self, holds⟩
      · obtain ⟨type, among, holds⟩ := ih.1 value' later
        exact ⟨type, List.mem_cons_of_mem _ among, holds⟩
    · intro type among
      rcases List.mem_cons.1 among with rfl | later
      · exact ⟨value, List.mem_cons_self⟩
      · obtain ⟨value', among⟩ := ih.2 type later
        exact ⟨value', List.mem_cons_of_mem _ among⟩

end Discipline

/-! ### The store of an activation -/

variable {program : Program} {parents : List (Option RoutineId)} {d : Discipline} {bound : Nat}

namespace Program

def view (program : Program) (parents : List (Option RoutineId)) (part : Option RoutineId) :
    Sight :=
  ((program.outline parents).sight part).only (program.uses part) (program.calls part)

lemma result_view {id : RoutineId} {routine : Routine}
    (found : program.routines[id]? = some routine) :
    (program.view parents (some id)).result = routine.returns := by
  change (program.routines.map Routine.signature)[id]?.bind (·.returns) = _
  rw [List.getElem?_map, found]
  rfl

/-- All names of the parts around are there, each with a value for a type that was handed down; and
so is the result of a function. -/
structure Fit (d : Discipline) (program : Program) (parents : List (Option RoutineId))
    (part : Option RoutineId) (store : Store) : Prop where
  place : ∀ owner name type, Within parents part owner → (name, type) ∈ program.storage owner →
    ∃ type' value, store.get? name = some value ∧ program.Hands name type' part ∧
    d.holds type' value
  result : ∀ type, (program.view parents part).result = some type →
    ∃ value, store.get? resultSlot = some value ∧ d.holds type value

/-- The declarations that may reach a part go with the types that it uses their names at. -/
def Consistent (d : Discipline) (program : Program) (parents : List (Option RoutineId)) : Prop :=
  ∀ part name type type', (program.view parents part).place name type →
    program.Hands name type' part → ∀ value, d.holds type' value ↔ d.holds type value

namespace WellTyped

variable (typed : program.WellTyped parents)

include typed

lemma data (part : Option RoutineId) : ((program.outline parents).sight part).Data where
  place name type := by
    rintro ⟨owner, -, stored⟩
    exact (typed.storage owner name type stored).2
  returns id signature type := by
    rintro ⟨owner, -, -, signed⟩ returns
    obtain ⟨routine, found, rfl⟩ := exists_of_signature signed
    exact typed.returns routine (List.mem_of_getElem? found) type returns

lemma viewData (part : Option RoutineId) : (program.view parents part).Data :=
  (typed.data part).only _ _

lemma viewBody {part : Option RoutineId} {body : Stmt} (h : program.bodyOf? part = some body) :
    body.WellTyped (program.view parents part) := by
  have whole : body.WellTyped ((program.outline parents).sight part) := by
    cases part with
    | none => obtain rfl := Option.some.inj h; exact typed.body
    | some id =>
      obtain ⟨routine, found, rfl⟩ := Option.map_eq_some_iff.1 h
      exact typed.routines id routine found
  refine whole.only (typed.data part) ?_ ?_
  · unfold uses
    rw [h]
    exact List.Subset.refl _
  · unfold calls
    rw [h]
    exact List.Subset.refl _

/-! ### Starting an activation -/

lemma fit_initialStore (sound : d.Sound) : Fit d program parents none program.initialStore where
  place owner name type within stored := by
    cases within
    obtain ⟨type', among, found⟩ | ⟨absent, -⟩ :=
      Store.get?_setDefaults program.vars (Store.empty.setAll program.constants) name
    · have data := (typed.storage none name type' among).2
      have shaped := Value.hasShape_default data
      exact ⟨type', _, found, .own among, sound.shape shaped⟩
    · exact absurd stored (absent type)
  result := nofun

/-- Under any other name than the result's, a frame has a value for one of the routine's own names,
or what the caller has. -/
lemma get?_frame (sound : d.Sound) {id : RoutineId} {routine : Routine}
    (found : program.routines[id]? = some routine) {values : List Value}
    (fills : d.Fills values routine.params) (store : Store) {name : String}
    (ne : name ≠ resultSlot) :
    (∃ type value, (name, type) ∈ program.storage (some id) ∧
      (routine.frame values store).get? name = some value ∧ d.holds type value) ∨
    (∀ type, (name, type) ∉ program.storage (some id)) ∧
      (routine.frame values store).get? name = store.get? name := by
  let passed := (routine.params.map (·.1)).zip values
  have kept : (routine.frame values store).get? name =
      ((store.setAll passed).setDefaults routine.locals).get? name := by
    unfold Routine.frame
    rcases routine.returns with _ | type
    · rfl
    · exact Store.get?_set_of_ne _ _ ne.symm
  have storage := storage_some found
  rw [kept]
  obtain ⟨type, among, there⟩ | ⟨notLocal, there⟩ :=
    Store.get?_setDefaults routine.locals (store.setAll passed) name <;> rw [there]
  · have own : (name, type) ∈ program.storage (some id) := by
      rw [storage]
      exact List.mem_append_right _ among
    have data := (typed.storage _ _ _ own).2
    exact .inl ⟨type, _, own, rfl, sound.shape (Value.hasShape_default data)⟩
  obtain ⟨value, among, there⟩ | ⟨notParam, there⟩ :=
    Store.get?_setAll passed store name <;> rw [there]
  · obtain ⟨type, among, holds⟩ := fills.mem_zip.1 value among
    have own : (name, type) ∈ program.storage (some id) := by
      rw [storage]
      exact List.mem_append_left _ among
    exact .inl ⟨type, value, own, rfl, holds⟩
  · refine .inr ⟨fun type own => ?_, rfl⟩
    rw [storage] at own
    rcases List.mem_append.1 own with param | local'
    · obtain ⟨value, among⟩ := fills.mem_zip.2 type param
      exact notParam value among
    · exact notLocal type local'

/-- **A frame has all that its routine can see**, if the caller's store has all that the caller
can. -/
theorem fit_frame (sound : d.Sound) {caller owner : Option RoutineId} {id : RoutineId}
    {routine : Routine} (found : program.routines[id]? = some routine)
    (parent : parents[id]? = some owner) (within : Within parents caller owner)
    (called : id ∈ program.calls caller) {values : List Value}
    (fills : d.Fills values routine.params)
    {store : Store} (fit : Fit d program parents caller store) :
    Fit d program parents (some id) (routine.frame values store) where
  place owner' name type within' stored := by
    have ne := (typed.storage owner' name type stored).1
    obtain ⟨type', value, own, there, holds⟩ | ⟨foreign, there⟩ :=
      typed.get?_frame sound found fills store ne
    · exact ⟨type', value, there, .own own, holds⟩
    -- what is not its own stands in a part around, which is around the caller as well
    cases within' with
    | here => exact absurd stored (foreign type)
    | outward parent' further =>
      rw [parent] at parent'
      cases parent'
      obtain ⟨type', value, got, hands, holds⟩ :=
        fit.place owner' name type (within.trans further) stored
      exact ⟨type', value, there.trans got, .down hands called foreign, holds⟩
  result type returns := by
    rw [result_view found] at returns
    refine ⟨type.default, ?_, sound.shape (Value.hasShape_default ?_)⟩
    · unfold Routine.frame
      rw [returns]
      exact Store.get?_set_self _ _ _
    · exact typed.returns routine (List.mem_of_getElem? found) type returns

end WellTyped

/-! ### Through nested calls -/

section

variable (typed : program.WellTyped parents) (consistent : Consistent d program parents)

include typed consistent

lemma Fit.set {part : Option RoutineId} {store : Store} (fit : Fit d program parents part store)
    {name : String} {type : Ty} (seen : (program.view parents part).place name type) {value : Value}
    (holds : d.holds type value) : Fit d program parents part (store.set name value) := by
  obtain ⟨owner, within, stored⟩ := seen.1
  refine ⟨fun owner' other type' within' stored' => ?_, fun type' returns => ?_⟩
  · rw [Store.get?_set]
    split
    next e =>
      subst e
      obtain ⟨type'', -, -, hands, -⟩ := fit.place owner name type within stored
      exact ⟨type'', value, rfl, hands,
        (consistent part name type _ seen hands value).2 holds⟩
    next => exact fit.place owner' other type' within' stored'
  · rw [Store.get?_set_of_ne _ _ (typed.storage owner name type stored).1]
    exact fit.result type' returns

omit consistent in
lemma Fit.setResult {part : Option RoutineId} {store : Store}
    (fit : Fit d program parents part store)
    {type : Ty} (returns : (program.view parents part).result = some type) {value : Value}
    (holds : d.holds type value) : Fit d program parents part (store.set resultSlot value) := by
  refine ⟨fun owner name type' within stored => ?_, fun type' returns' => ?_⟩
  · rw [Store.get?_set_of_ne _ _ (typed.storage owner name type' stored).1.symm]
    exact fit.place owner name type' within stored
  · rw [returns] at returns'
    obtain rfl := Option.some.inj returns'
    exact ⟨value, Store.get?_set_self _ _ _, holds⟩

/-- What is in its place serves an activation, and is guarded by it, if calls are answered. -/
lemma guards_of_calls {context : Context} (routines : context.routines = program.routines)
    (part : Option RoutineId)
    (calls : ∀ id routine owner values store, program.routines[id]? = some routine →
      parents[id]? = some owner → Within parents part owner → id ∈ program.calls part →
      d.Fills values routine.params → Fit d program parents part store →
      Eval.Safe d.allows (d.Answers routine.returns) (context.run routine values store)) :
    d.Guards (program.view parents part) context (Fit d program parents part) where
  serves store fit := by
    refine ⟨fun name type seen => ?_, fun id signature seen => ?_⟩
    · obtain ⟨owner, within, stored⟩ := seen.1
      obtain ⟨type', value, got, hands, holds⟩ := fit.place owner name type within stored
      rw [got]
      exact (consistent part name type _ seen hands value).1 holds
    · obtain ⟨⟨owner, within, parent, signed⟩, called⟩ := seen
      obtain ⟨routine, found, rfl⟩ := exists_of_signature signed
      rw [routines, found]
      exact fun values fills =>
        calls id routine owner values store found parent within called fills fit
  place store name type value fit seen holds := fit.set typed consistent seen holds
  result store type value fit returns holds := fit.setResult typed returns holds

variable (sound : d.Sound)

include sound

/-- **Calls are answered**, from however deep they are made. -/
theorem run_safe (depth : Nat) : ∀ (caller : Option RoutineId) (id : RoutineId) (routine : Routine)
    (owner : Option RoutineId) (values : List Value) (store : Store),
    program.routines[id]? = some routine → parents[id]? = some owner → Within parents caller owner →
    id ∈ program.calls caller → d.Fills values routine.params → Fit d program parents caller store →
    Eval.Safe d.allows (d.Answers routine.returns)
      (Routine.run program.routines bound depth routine values store) := by
  -- the body is run in a frame that fits, with calls that nest one less deep
  induction depth with
  | zero => exact fun _ _ _ _ _ _ _ _ _ _ _ _ => .throw trivial
  | succ depth ih =>
    intro caller id routine owner values store found parent within called fills fit
    have guards : d.Guards (program.view parents (some id)) (program.context bound depth)
        (Fit d program parents (some id)) :=
      guards_of_calls typed consistent rfl (some id) (ih (some id))
    have body : routine.body.WellTyped (program.view parents (some id)) :=
      typed.viewBody (bodyOf?_some found)
    have frame := typed.fit_frame sound found parent within called fills fit
    refine .run (guards.exec sound (typed.viewData _) bound body) frame fun last fit => ?_
    have result := fit.result
    rw [result_view found] at result
    rcases returns : routine.returns with _ | type
    · trivial
    · obtain ⟨value, got, holds⟩ := result type returns
      rw [Option.bind_some, got]
      exact holds

theorem guards_fit (bound depth : Nat) (part : Option RoutineId) :
    d.Guards (program.view parents part) (program.context bound depth)
      (Fit d program parents part) :=
  guards_of_calls typed consistent rfl part
    (run_safe typed consistent sound depth part)

/-- **Wherever a run comes to**, the statement is well typed and everything is in its place. -/
theorem Visits.fit {part : Option RoutineId} {depth : Nat} {s : Stmt} {machine : Machine}
    (h : program.Visits bound part depth s machine) :
    s.WellTyped (program.view parents part) ∧ Fit d program parents part machine.store := by
  induction h with
  | start => exact ⟨typed.viewBody rfl, typed.fit_initialStore sound⟩
  | @inside part depth s m t n _ reached ih =>
    have guards := guards_fit typed consistent sound bound depth part
    exact guards.reaches sound (typed.viewData _) reached ih.1 ih.2
  | @call part depth s m id values n routine _ invoked found ih =>
    have guards := guards_fit typed consistent sound bound (depth + 1) part
    obtain ⟨signature, ⟨⟨owner, within, parent, signed⟩, called⟩, fills, fit⟩ :=
      guards.invokes sound (typed.viewData _) invoked ih.1 ih.2
    obtain ⟨routine', found', rfl⟩ := exists_of_signature signed
    obtain rfl := Option.some.inj (found'.symm.trans found)
    refine ⟨typed.viewBody (bodyOf?_some found), ?_⟩
    exact typed.fit_frame sound found parent within called fills fit

/-- A run of the program ends safely. -/
theorem run_ends (bound : Nat) :
    Accounts (Stop.Within d.allows) (fun _ => True) (program.run bound).1 := by
  have guards := guards_fit typed consistent sound bound bound none
  have safe := guards.exec sound (typed.viewData _) bound (typed.viewBody rfl)
  exact (safe ⟨program.initialStore, #[]⟩ (typed.fit_initialStore sound)).2

end

end Program

end SmallPascal
