import Mathlib.Data.List.Infix
import SmallPascal.Proofs.Coercion

/-! Writing at two places of a nested array. Where neither place lies inside the other, the order of
the two writes does not show, not even in which elements are stored: what the first write makes on
the way is what the second one would have made. -/

namespace SmallPascal

namespace Elements

lemma insert_insert (elements : Elements) (k : Nat) (v w : Value) :
    (elements.insert k v).insert k w = elements.insert k w := by
  fun_induction insert elements k v with
  | case1 => simp [insert]
  | case2 offset value rest k v before => simp [insert, before]
  | case3 offset value rest v => simp [insert]
  | case4 offset value rest k v before ne ih => simp [insert, before, ne, ih]

lemma insert_comm (elements : Elements) {j k : Nat} (ne : j ≠ k) (v w : Value) :
    (elements.insert j v).insert k w = (elements.insert k w).insert j v := by
  fun_induction insert elements j v <;> grind [insert]

/-- The element at an offset is of the item type, written or not, if the items are arrays. -/
lemma HaveShape.getD {elements : Elements} {item : Ty} (items : elements.HaveShape item)
    (nested : 0 < item.depth) (offset : Nat) :
    ((elements.get? offset).getD item.default).HasShape item := by
  rcases found : elements.get? offset with _ | w
  · cases item with
    | array => trivial
    | _ => cases nested
  · exact items.get? found

end Elements

namespace Value

variable {low high : Integer} {type item : Ty} {ps qs : List Nat} {target : Value}

/-- Writing into an array writes into one of its elements, which is made if it has not been
stored. -/
lemma write_steps_cons (low high : Integer) (item : Ty) (offset : Nat) (rest : List Nat) (v : Value)
    (elements : Elements) :
    write ((Ty.array low high item).steps (offset :: rest)) v (.array elements) =
      (.array (elements.insert offset
        (write (item.steps rest) v ((elements.get? offset).getD item.default)).1),
      (write (item.steps rest) v ((elements.get? offset).getD item.default)).2) := rfl

lemma write_steps_accepted (shaped : ps ≠ [] → target.HasShape type)
    (inside : ps.length ≤ type.depth) (v : Value) : (write (type.steps ps) v target).2 = none := by
  induction ps generalizing type target with
  | nil => rw [Ty.steps_nil]; rfl
  | cons offset rest ih =>
    cases type with
    | array low high item =>
      obtain ⟨elements, rfl, items⟩ := hasShape_array.1 (shaped (List.cons_ne_nil _ _))
      have inside := Nat.le_of_succ_le_succ inside
      rw [write_steps_cons]
      refine ih (fun more => items.getD ?_ offset) inside
      exact Nat.lt_of_lt_of_le (List.length_pos_iff.2 more) inside
    | _ => exact absurd inside (by simp [Ty.depth])

/-- Two writes at places apart come to the same in both orders, and each is refused or not whatever
the other one has written. -/
lemma write_write_of_apart (inside : ps.length ≤ type.depth) (inside' : qs.length ≤ type.depth)
    (below : ¬ ps <+: qs) (above : ¬ qs <+: ps) (v w : Value) :
    ∃ both, write (type.steps qs) w (write (type.steps ps) v target).1 =
        (both, (write (type.steps qs) w target).2) ∧
      write (type.steps ps) v (write (type.steps qs) w target).1 =
        (both, (write (type.steps ps) v target).2) := by
  induction ps generalizing type qs target with
  | nil => exact absurd List.nil_prefix below
  | cons i ps ih =>
    cases qs with
    | nil => exact absurd List.nil_prefix above
    | cons j qs =>
      cases type with
      | array low high item =>
        cases target with
        | array elements =>
          simp only [write_steps_cons, Elements.get?_insert]
          rcases eq_or_ne i j with rfl | ne
          · -- the paths part inside an element that both writes come to
            obtain ⟨both, first, second⟩ := @ih item qs ((elements.get? i).getD item.default)
              (Nat.le_of_succ_le_succ inside) (Nat.le_of_succ_le_succ inside')
              (fun front => below (List.cons_prefix_cons.2 ⟨rfl, front⟩))
              fun front => above (List.cons_prefix_cons.2 ⟨rfl, front⟩)
            refine ⟨.array (elements.insert i both), ?_, ?_⟩
            · rw [if_pos rfl, Option.getD_some, first, Elements.insert_insert]
            · rw [if_pos rfl, Option.getD_some, second, Elements.insert_insert]
          · rw [if_neg ne, if_neg ne.symm, Elements.insert_comm _ ne]
            exact ⟨_, rfl, rfl⟩
        | _ => exact ⟨_, rfl, rfl⟩
      | _ => exact absurd inside (by simp [Ty.depth])

/-- **Writes at places apart commute.** Let a value be of a nested array type, and two paths of
offsets go no deeper than the type, neither of them being the beginning of the other. Then any two
values can be written there in both orders, and both come to the same value, with the same elements
stored at every depth. -/
theorem writes_commute (shaped : target.HasShape type) (inside : ps.length ≤ type.depth)
    (inside' : qs.length ≤ type.depth) (below : ¬ ps <+: qs) (above : ¬ qs <+: ps) (v w : Value) :
    ∃ first first' both, write (type.steps ps) v target = (first, none) ∧
      write (type.steps qs) w first = (both, none) ∧
      write (type.steps qs) w target = (first', none) ∧
      write (type.steps ps) v first' = (both, none) := by
  have accepted := write_steps_accepted (fun _ => shaped) inside v
  have accepted' := write_steps_accepted (fun _ => shaped) inside' w
  obtain ⟨both, there, back⟩ :=
    @write_write_of_apart type ps qs target inside inside' below above v w
  rw [accepted'] at there
  rw [accepted] at back
  exact ⟨_, _, both, Prod.ext rfl accepted, there, Prod.ext rfl accepted', back⟩

/-- Two elements of a row that neither write finds, since nothing is stored in the table. -/
theorem writes_commute_row :
    let table : Ty := .array 0 9 (.array 1 3 .integer)
    let one : List (Nat × Ty) := table.steps [4, 2]
    let other : List (Nat × Ty) := table.steps [4, 0]
    Value.HasShape (.array .nil) table ∧ ¬ [4, 2] <+: [4, 0] ∧ ¬ [4, 0] <+: [4, 2] ∧
    ∃ first first' both, write one (.integer 7) (.array .nil) = (first, none) ∧
      write other (.integer 8) first = (both, none) ∧
      write other (.integer 8) (.array .nil) = (first', none) ∧
      write one (.integer 7) first' = (both, none) ∧ first ≠ first' ∧ both.text = "[[8, 7]]" := by
  intro table one other
  have shaped : Value.HasShape (.array .nil) table := trivial
  have below : ¬ [4, 2] <+: [4, 0] := by decide
  have above : ¬ [4, 0] <+: [4, 2] := by decide
  obtain ⟨first, first', both, written, there, written', back⟩ :=
    @writes_commute table [4, 2] [4, 0] (.array .nil) shaped (by decide) (by decide) below above
      (.integer 7) (.integer 8)
  refine ⟨shaped, below, above, first, first', both, written, there, written', back, ?_, ?_⟩
  · cases written
    cases written'
    decide
  · cases written
    cases there
    decide +kernel

end Value

end SmallPascal
