import SmallPascal.Proofs.Flow

/-! What arrays hold. Indices are checked, so that elements are written inside the bounds of an
array; but arrays of the same items accept each other whatever their bounds, and a name may hold
more than its type says as soon as a longer array has come there whole. -/

namespace SmallPascal

namespace Program

variable {text : String} {program : Program}

/-! ### Longer arrays -/

def overfilled : String :=
  "program P; var a: Array[0..9] of Integer; b: Array[0..2] of Integer;
  begin a[9] := 1; b := a end."

/-- Passing the check is not enough to keep arrays inside their bounds. -/
theorem overfilled_exceeds : ¬ ∀ (text : String) (program : Program) (bound : Nat),
    ofText text = .ok program → ∀ part store, program.Reached bound part store →
      ∀ name type, (name, type) ∈ program.slots part →
        ∃ value, store.get? name = some value ∧ value.InBounds type := by
  intro h
  have checked : (ofText overfilled).toOption.any (fun program =>
      decide (("b", .array 0 2 .integer) ∈ program.slots none) &&
      decide ((program.run 3).2.store.get? "b" = some (.array (.cons 9 (.integer 1) .nil)))) := by
    decide +kernel
  obtain ⟨program, accepted, good⟩ := exists_of_any checked
  obtain ⟨declared, held⟩ := Bool.and_eq_true_iff.1 good
  obtain ⟨value, held', inside⟩ := h overfilled program 3 accepted none _ (.ended .start) _ _
    (of_decide_eq_true declared)
  obtain rfl := Option.some.inj (held'.symm.trans (of_decide_eq_true held))
  have reaches := (inside (9, .integer 1) List.mem_cons_self).1
  exact absurd reaches (by decide)

/-! ### Bounds that are kept -/

/-- **Arrays are bounded by what may have come to them.** In every store that a run of an accepted
program comes to, each name that the activation has of its own has a value, of which every level is
bounded by one of the types that may have had a hand in it; and this value is inside the bounds of
the name's own type if none of these types is longer at any level. -/
theorem arrays_bounded (accepted : ofText text = .ok program) (bound : Nat)
    (part : Option RoutineId)
    (store : Store) (reached : program.Reached bound part store) (name : String) (type : Ty)
    (declared : (name, type) ∈ program.slots part) :
    ∃ value, store.get? name = some value ∧
      value.Bounded (program.Receives (.name part name)) ∧
      ((∀ other, program.Receives (.name part name) other → type.Covers other) →
        value.InBounds type) := by
  obtain ⟨o, s, fits, closed, routines, vars, body⟩ := fits_of_ofText accepted
  have typed := wellTyped_of_fits fits closed routines vars body
  have fine := fine_of_ofText accepted
  have traced :=
    reached.traced typed (fun node among => (fine.nodes node among).single) fine.constants
  obtain ⟨value, held⟩ := Option.isSome_iff_exists.1 (traced.own name type declared)
  have bounded := traced.bounded name value held
  exact ⟨value, held, bounded, fun covered => bounded.inBounds covered⟩

def stretched : String :=
  "program P; var a: Array[0..2] of Integer; b: Array[0..9] of Integer;
  begin a[2] := 1; b := a end."

/-- The node sets `b` to `a`, or a literal within the bounds of `a`, if it sets anything. -/
def stretches : Node → Bool
  | .stmt (.assign name (.var source ..) _) => name = "b" ∧ source = "a"
  | .stmt (.assign ..) => false
  | .stmt (.assignElement name path e _) =>
    name = "a" ∧ path.map (fun step => (step.low, step.high)) = [(0, 2)] ∧ e.isLiteral
  | _ => true

lemma covers_of_stretches (slots : program.slots none =
      [("a", .array 0 2 .integer), ("b", .array 0 9 .integer)])
    (nodes : ∀ node ∈ program.nodesOf none, stretches node) {holder : Holder} {type : Ty}
    (h : program.Receives holder type) :
    (holder = .name none "a" → Ty.Covers (.array 0 2 .integer) type) ∧
      (holder = .name none "b" → Ty.Covers (.array 0 9 .integer) type) ∧
      ∀ name found span, holder = .value none (.var name found span) → name = "a" →
        Ty.Covers (.array 0 2 .integer) type := by
  have longer {type : Ty} (short : Ty.Covers (.array 0 2 .integer) type) :
      Ty.Covers (.array 0 9 .integer) type := by
    cases type with
    | array low high item => exact ⟨Int.le_trans short.1 (by decide), trivial⟩
    | _ => trivial
  induction h with
  | own declared =>
    refine ⟨?_, ?_, nofun⟩ <;> rintro ⟨⟩ <;> rw [slots] at declared
    · obtain rfl : _ = Ty.array 0 2 .integer := by simpa using declared
      exact ⟨by decide, trivial⟩
    · obtain rfl : _ = Ty.array 0 9 .integer := by simpa using declared
      exact ⟨by decide, trivial⟩
  | @assigned part name e span type among _ ih =>
    refine ⟨?_, ?_, nofun⟩ <;> rintro ⟨⟩ <;> have sets := nodes _ among <;>
      cases e <;> simp [stretches] at sets
    exact longer (ih.2.2 _ _ _ rfl sets)
  | @indexed part name path e span among =>
    refine ⟨?_, ?_, nofun⟩ <;> rintro ⟨⟩ <;> have sets := nodes _ among <;> simp [stretches] at sets
    obtain ⟨step, rfl, low, high⟩ := sets.1
    simp [Ty.along, low, high, Ty.Covers]
  | @element part name path e span type among received =>
    refine ⟨?_, ?_, nofun⟩ <;> rintro ⟨⟩ <;> have sets := nodes _ among <;> cases e <;>
      simp [stretches, Expr.isLiteral] at sets
    cases received
  | passed | copied => exact ⟨nofun, nofun, nofun⟩
  | var _ ih =>
    refine ⟨nofun, nofun, ?_⟩
    rintro name found span ⟨⟩ rfl
    exact ih.1 rfl
  | index | widen | call => exact ⟨nofun, nofun, nofun⟩

theorem arrays_bounded_stretched : ∃ program, ofText stretched = .ok program ∧
    ∃ store, program.Reached 3 none store ∧ ("b", .array 0 9 .integer) ∈ program.slots none ∧
      (∀ other, program.Receives (.name none "b") other → Ty.Covers (.array 0 9 .integer) other) ∧
      ∃ value, store.get? "b" = some value ∧ value.Bounded (program.Receives (.name none "b")) ∧
        value.InBounds (.array 0 9 .integer) := by
  have checked : (ofText stretched).toOption.any (fun program =>
      decide (program.slots none = [("a", .array 0 2 .integer), ("b", .array 0 9 .integer)]) &&
      decide (∀ node ∈ program.nodesOf none, stretches node)) := by
    decide +kernel
  obtain ⟨program, accepted, good⟩ := exists_of_any checked
  obtain ⟨slots, nodes⟩ := Bool.and_eq_true_iff.1 good
  have slots := of_decide_eq_true slots
  have declared : ("b", .array 0 9 .integer) ∈ program.slots none := by rw [slots]; decide
  have covered (other) (received : program.Receives (.name none "b") other) :=
    (covers_of_stretches slots (of_decide_eq_true nodes) received).2.1 rfl
  obtain ⟨value, held, bounded, inside⟩ :=
    arrays_bounded accepted 3 none _ (.ended .start) "b" _ declared
  exact ⟨program, accepted, _, .ended .start, declared, covered, value, held, bounded,
    inside covered⟩

end Program

end SmallPascal
