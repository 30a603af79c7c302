import SmallPascal.Proofs.ExpressionReading

/-! Parts of a program inside other parts, and the outline of a program as far as it was read. While
it is being read an outline only grows: by storage in the part whose declarations are read, and by
routines. -/

namespace SmallPascal

/-! ### Parts inside parts -/

section

variable {parents parents' : List (Option RoutineId)}

/-- Each routine is declared in the next one, and the last one in the program itself. -/
inductive Nested (parents : List (Option RoutineId)) : List RoutineId → Prop
  | nil : Nested parents []
  | cons {id enclosing} : parents[id]? = some enclosing.head? → Nested parents enclosing →
    Nested parents (id :: enclosing)

lemma Nested.tail {enclosing : List RoutineId} (h : Nested parents enclosing) :
    Nested parents enclosing.tail := by
  cases h with
  | nil => exact .nil
  | cons _ h => exact h

/-- The parts around a place in the text, from the innermost outward. -/
def around (enclosing : List RoutineId) : List (Option RoutineId) := enclosing.map some ++ [none]

lemma around_eq (enclosing : List RoutineId) :
    around enclosing = enclosing.head? :: (around enclosing).tail := by
  cases enclosing <;> rfl

lemma Nested.within {enclosing : List RoutineId} (h : Nested parents enclosing) :
    ∀ part ∈ around enclosing, Within parents enclosing.head? part := by
  induction h with
  | nil =>
    intro part among
    obtain rfl := List.mem_singleton.1 among
    exact .here
  | cons parent _ ih =>
    intro part among
    rcases List.mem_cons.1 among with rfl | further
    · exact .here
    · exact .outward parent (ih part further)

lemma Nested.mem {enclosing : List RoutineId} (h : Nested parents enclosing) {id : RoutineId}
    (within : Within parents enclosing.head? (some id)) : id ∈ enclosing := by
  induction h with
  | nil => cases within
  | @cons first enclosing parent _ ih =>
    cases within with
    | here => exact List.mem_cons_self
    | outward parent' further =>
      rw [parent] at parent'
      cases parent'
      exact List.mem_cons_of_mem _ (ih further)

lemma Nested.lt {enclosing : List RoutineId} (h : Nested parents enclosing) :
    ∀ id ∈ enclosing, id < parents.length := by
  induction h with
  | nil => simp
  | cons parent _ ih =>
    exact List.forall_mem_cons.2 ⟨(List.getElem?_eq_some_iff.1 parent).1, ih⟩

lemma getElem?_mono {α : Type} {items items' : List α} (more : items <+: items') {n : Nat} {a : α}
    (h : items[n]? = some a) : items'[n]? = some a := by
  obtain ⟨rest, rfl⟩ := more
  rw [List.getElem?_append_left (List.getElem?_eq_some_iff.1 h).1, h]

lemma Nested.mono (more : parents <+: parents') {enclosing : List RoutineId}
    (h : Nested parents enclosing) : Nested parents' enclosing := by
  induction h with
  | nil => exact .nil
  | cons parent _ ih => exact .cons (getElem?_mono more parent) ih

lemma Within.mono (more : parents <+: parents') {a b : Option RoutineId} (h : Within parents a b) :
    Within parents' a b := by
  induction h with
  | here => exact .here
  | outward parent _ ih => exact .outward (getElem?_mono more parent) ih

lemma Within.restrict (more : parents <+: parents')
    (earlier : ∀ id outer : RoutineId, parents[id]? = some (some outer) → outer < id)
    {a b : Option RoutineId} (h : Within parents' a b) (old : ∀ id ∈ a, id < parents.length) :
    Within parents a b := by
  induction h with
  | here => exact .here
  | @outward id outer part parent _ ih =>
    have bound := old id rfl
    obtain ⟨rest, rfl⟩ := more
    rw [List.getElem?_append_left bound] at parent
    refine .outward parent (ih fun outer' among => ?_)
    obtain rfl := Option.mem_def.1 among
    exact Nat.lt_trans (earlier id outer' parent) bound

end

/-! ### Outlines -/

namespace Outline

variable {o o' o'' : Outline} {part : Option RoutineId} {vars more : List (String × Ty)}

def own (o : Outline) (part : Option RoutineId) : Sight where
  place name type := (name, type) ∈ o.storage part
  callee id signature := o.parents[id]? = some part ∧ o.signatures[id]? = some signature
  result := none

lemma own_below {seen : Option RoutineId} (h : Within o.parents part seen) :
    (o.own seen).Below (o.sight part) :=
  ⟨fun _ _ declared => ⟨seen, h, declared⟩, fun _ _ declared => ⟨seen, h, declared⟩, nofun⟩

/-- The first outline with more routines, and with more storage in one of its parts. -/
structure Grows (o o' : Outline) (part : Option RoutineId) (vars : List (String × Ty)) : Prop where
  parents : o.parents <+: o'.parents
  signatures : o.signatures <+: o'.signatures
  storage : o'.storage part = o.storage part ++ vars
  others : ∀ other, other ≠ part → (∀ id ∈ other, id < o.parents.length) →
    o'.storage other = o.storage other

/-- Only parts that there are have storage. -/
def Housed (o : Outline) : Prop := ∀ id, o.parents.length ≤ id → o.storage (some id) = []

namespace Grows

lemma refl : Grows o o part [] := ⟨List.prefix_rfl, List.prefix_rfl, by simp, fun _ _ _ => rfl⟩

lemma trans (h : Grows o o' part vars) (h' : Grows o' o'' part more) :
    Grows o o'' part (vars ++ more) := by
  refine ⟨h.parents.trans h'.parents, h.signatures.trans h'.signatures, ?_, fun other ne old => ?_⟩
  · rw [h'.storage, h.storage, List.append_assoc]
  · have still : ∀ id ∈ other, id < o'.parents.length := by
      intro id among
      exact Nat.lt_of_lt_of_le (old id among) h.parents.length_le
    rw [h'.others other ne still, h.others other ne old]

lemma mem (h : Grows o o' part vars) (housed : o.Housed) {other : Option RoutineId} {name : String}
    {type : Ty} (stored : (name, type) ∈ o.storage other) : (name, type) ∈ o'.storage other := by
  rcases eq_or_ne other part with rfl | ne
  · rw [h.storage]
    exact List.mem_append_left _ stored
  · rwa [h.others other ne]
    intro id among
    obtain rfl := Option.mem_def.1 among
    by_contra beyond
    have none := housed id (Nat.le_of_not_lt beyond)
    rw [none] at stored
    cases stored

lemma own_below (h : Grows o o' part vars) (housed : o.Housed) (other : Option RoutineId) :
    (o.own other).Below (o'.own other) where
  place _ _ := h.mem housed
  callee _ _ declared :=
    ⟨getElem?_mono h.parents declared.1, getElem?_mono h.signatures declared.2⟩
  result := nofun

lemma below (h : Grows o o' part vars) (housed : o.Housed) (other : Option RoutineId) :
    (o.sight other).Below (o'.sight other) where
  place name type := by
    rintro ⟨owner, within, stored⟩
    exact ⟨owner, within.mono h.parents, h.mem housed stored⟩
  callee id signature := by
    rintro ⟨owner, within, parent, signed⟩
    exact ⟨owner, within.mono h.parents, getElem?_mono h.parents parent,
      getElem?_mono h.signatures signed⟩
  result type set := by
    obtain ⟨id, rfl, found⟩ := Option.bind_eq_some_iff.1 set
    obtain ⟨signature, signed, returns⟩ := Option.bind_eq_some_iff.1 found
    change o'.signatures[id]?.bind (·.returns) = some type
    rw [getElem?_mono h.signatures signed]
    exact returns

end Grows

/-- The outline of a text of which nothing was read yet. -/
def empty : Outline := ⟨[], [], fun _ => []⟩

/-- The outline with more storage in one part. -/
def store (o : Outline) (part : Option RoutineId) (vars : List (String × Ty)) : Outline :=
  { o with storage :=
    fun other => if other = part then o.storage other ++ vars else o.storage other }

lemma storage_store_of_ne {other : Option RoutineId} (ne : other ≠ part) :
    (o.store part vars).storage other = o.storage other := if_neg ne

lemma grows_store : Grows o (o.store part vars) part vars :=
  ⟨List.prefix_rfl, List.prefix_rfl, if_pos rfl, fun _ ne _ => storage_store_of_ne ne⟩

/-- The outline with one more routine, which has no storage yet but its parameters. -/
def enter (o : Outline) (part : Option RoutineId) (signature : Signature) : Outline where
  parents := o.parents ++ [part]
  signatures := o.signatures ++ [signature]
  storage other := if other = some o.parents.length then signature.params else o.storage other

lemma parents_enter {signature : Signature} :
    (o.enter part signature).parents[o.parents.length]? = some part := List.getElem?_concat_length

lemma signatures_enter {signature : Signature} (same : o.signatures.length = o.parents.length) :
    (o.enter part signature).signatures[o.parents.length]? = some signature := by
  rw [← same]
  exact List.getElem?_concat_length

lemma storage_enter_self {signature : Signature} :
    (o.enter part signature).storage (some o.parents.length) = signature.params := if_pos rfl

lemma storage_enter {signature : Signature} {other : Option RoutineId}
    (old : ∀ id ∈ other, id < o.parents.length) :
    (o.enter part signature).storage other = o.storage other := by
  have ne : other ≠ some o.parents.length := by
    rintro rfl
    exact Nat.lt_irrefl _ (old _ rfl)
  exact if_neg ne

lemma grows_enter {signature : Signature} (old : ∀ id ∈ part, id < o.parents.length) :
    Grows o (o.enter part signature) part [] where
  parents := List.prefix_append _ _
  signatures := List.prefix_append _ _
  storage := by rw [storage_enter old, List.append_nil]
  others _ _ old' := storage_enter old'

lemma Grows.shut {signature : Signature} (old : ∀ id ∈ part, id < o.parents.length)
    (h : Grows (o.enter part signature) o' (some o.parents.length) vars) : Grows o o' part [] := by
  have entered : Grows o (o.enter part signature) part [] := grows_enter old
  have kept (other : Option RoutineId) (old : ∀ id ∈ other, id < o.parents.length) :
      o'.storage other = o.storage other := by
    rw [h.others other, storage_enter old]
    · rintro rfl
      exact Nat.lt_irrefl _ (old _ rfl)
    · intro id among
      exact Nat.lt_of_lt_of_le (old id among) entered.parents.length_le
  refine ⟨entered.parents.trans h.parents, entered.signatures.trans h.signatures, ?_,
    fun other _ => kept other⟩
  rw [kept part old, List.append_nil]

end Outline

lemma Symbol.Seen.mono {sight wider : Sight} (below : sight.Below wider) {symbol : Symbol}
    (h : symbol.Seen sight) : symbol.Seen wider := by
  unfold Symbol.Seen at h ⊢
  rcases e : symbol.meaning with value | _ | _ | id | id <;> rw [e] at h <;> dsimp only at h ⊢
  · exact h
  · exact below.place _ _ h
  · exact below.place _ _ h
  · obtain ⟨params, returns, type, seen⟩ := h
    exact ⟨params, returns, type, below.callee _ _ seen⟩
  · obtain ⟨params, type, seen⟩ := h
    exact ⟨params, type, below.callee _ _ seen⟩

end SmallPascal
