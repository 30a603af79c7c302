import SmallPascal.Parse.Declaration
import SmallPascal.Proofs.Parts
import SmallPascal.Proofs.StatementReading
import SmallPascal.Proofs.TokenOrder

/-! What a reader knows between two declarations, against an outline of the program as far as it was
read. A routine is open while its declarations and its body are read, and closed behind its body. -/

namespace SmallPascal

variable {o : Outline} {s t : ParseState}

/-! ### Places in the text -/

/-- Routines in the order of the text: a closed routine has its body behind the routines inside it,
and before all others that come later. -/
structure Placed (parents : List (Option RoutineId)) (s : ParseState) : Prop where
  orderly : s.tokens.Orderly
  heads : ∀ routine ∈ s.routines, Parse.Ahead routine.span.start s
  bodies : ∀ (id : RoutineId) (routine : Routine), s.routines[id]? = some routine →
    id ∉ s.enclosing → Parse.Ahead routine.body.span.start s
  order : s.routines.Pairwise fun first later => first.span.start < later.span.start
  inside : ∀ id ∈ s.enclosing, ∀ later, id < later → later < s.routines.length →
    Within parents (some later) (some id)
  apart : ∀ (id later : RoutineId) (routine routine' : Routine), s.routines[id]? = some routine →
    s.routines[later]? = some routine' → id < later → id ∉ s.enclosing →
      (Within parents (some later) (some id) ↔ routine'.span.start < routine.body.span.start)

lemma Placed.stays {parents : List (Option RoutineId)} (h : Placed parents s) (on : ReadsOn s t) :
    Placed parents t where
  orderly := Parse.orderly.stays h.orderly on
  heads routine among := (h.heads routine (on.routines ▸ among)).stays on
  bodies id routine found out := by
    rw [on.routines] at found
    rw [on.enclosing] at out
    exact (h.bodies id routine found out).stays on
  order := on.routines ▸ h.order
  inside := by
    rw [on.enclosing, on.routines]
    exact h.inside
  apart := by
    rw [on.enclosing, on.routines]
    exact h.apart

/-! ### Fitting an outline -/

/-- All open scopes, from the innermost outward. -/
def Scopes.levels (scopes : Scopes) : List Scope := scopes.nested ++ [scopes.program]

lemma Scopes.levels_declare {scopes scopes' : Scopes} {symbol : Symbol}
    (h : scopes.declare symbol = .ok scopes') : ∃ inner outer, scopes.levels = inner :: outer ∧
      scopes'.levels = (symbol :: inner) :: outer := by
  unfold declare at h
  split at h
  · cases h
  · obtain rfl := Except.ok.inj h
    rcases scopes with ⟨program, _ | ⟨inner, outer⟩⟩
    · exact ⟨program, [], rfl, rfl⟩
    · exact ⟨inner, outer ++ [program], rfl, rfl⟩

structure Fits (o : Outline) (s : ParseState) : Prop where
  signatures : o.signatures = s.routines.map Routine.signature
  length : o.parents.length = s.routines.length
  earlier : ∀ id outer : RoutineId, o.parents[id]? = some (some outer) → outer < id
  nested : Nested o.parents s.enclosing
  scopes : List.Forall₂ (fun scope part => ∀ symbol ∈ scope, symbol.Seen (o.own part))
    s.scopes.levels (around s.enclosing)
  storage : ∀ part name type, (name, type) ∈ o.storage part → name ≠ resultSlot ∧ type.isData
  housed : o.Housed
  returns : ∀ routine ∈ s.routines, ∀ type, routine.returns = some type → type.isData
  bodies : ∀ (id : RoutineId) (routine : Routine), s.routines[id]? = some routine →
    routine.body.WellTyped (o.sight (some id))
  closed : ∀ (id : RoutineId) (routine : Routine), s.routines[id]? = some routine →
    id ∉ s.enclosing → o.storage (some id) = routine.params ++ routine.locals
  placed : Placed o.parents s

namespace Fits

lemma stays (h : Fits o s) (on : ReadsOn s t) : Fits o t where
  signatures := on.routines ▸ h.signatures
  length := on.routines ▸ h.length
  earlier := h.earlier
  nested := on.enclosing ▸ h.nested
  scopes := by
    rw [on.scopes, on.enclosing]
    exact h.scopes
  storage := h.storage
  housed := h.housed
  returns := on.routines ▸ h.returns
  bodies := on.routines ▸ h.bodies
  closed := by
    rw [on.routines, on.enclosing]
    exact h.closed
  placed := h.placed.stays on

lemma seen {scopes : List Scope} {parts : List (Option RoutineId)}
    (h : List.Forall₂ (fun scope part => ∀ symbol ∈ scope, symbol.Seen (o.own part)) scopes parts)
    {name : String} {symbol : Symbol} (found : scopes.findSome? (·.find? name) = some symbol) :
    symbol.name = name ∧ ∃ part ∈ parts, symbol.Seen (o.own part) := by
  induction h with
  | nil => cases found
  | @cons scope part scopes parts all _ ih =>
    rw [List.findSome?_cons] at found
    rcases e : Scope.find? scope name with _ | first <;> rw [e] at found
    · obtain ⟨named, part, among, seen⟩ := ih found
      exact ⟨named, part, List.mem_cons_of_mem _ among, seen⟩
    · obtain rfl := Option.some.inj found
      have named : first.name = name := by simpa using List.find?_some e
      have among := List.mem_of_find?_eq_some e
      exact ⟨named, part, List.mem_cons_self, all _ among⟩

lemma data (h : Fits o s) (part : Option RoutineId) : (o.sight part).Data where
  place name type := by
    rintro ⟨owner, -, stored⟩
    exact (h.storage owner name type stored).2
  returns id signature type := by
    rintro ⟨owner, -, -, signed⟩ returns
    rw [h.signatures, List.getElem?_map] at signed
    obtain ⟨routine, found, rfl⟩ := Option.map_eq_some_iff.1 signed
    exact h.returns routine (List.mem_of_getElem? found) type returns

lemma sees (h : Fits o s) : Sees (o.sight s.enclosing.head?) s where
  data := h.data _
  names name symbol found := by
    obtain ⟨named, part, among, seen⟩ := Fits.seen h.scopes found
    have within := h.nested.within part among
    exact ⟨named, seen.mono (Outline.own_below within)⟩
  result id signature first := by
    rintro ⟨owner, -, -, signed⟩
    change s.enclosing.head?.bind _ = _
    rw [first, Option.bind_some, signed, Option.bind_some]

lemma signatures_length (h : Fits o s) : o.signatures.length = o.parents.length := by
  rw [h.signatures, List.length_map, h.length]

lemma old (h : Fits o s) : ∀ id ∈ s.enclosing.head?, id < o.parents.length :=
  fun id first => h.nested.lt id (List.mem_of_mem_head? first)

/-! ### Declaring names -/

lemma declare (h : Fits o s) {symbol : Symbol} {scopes : Scopes}
    (declared : s.scopes.declare symbol = .ok scopes)
    (seen : symbol.Seen (o.own s.enclosing.head?)) : Fits o { s with scopes } where
  signatures := h.signatures
  length := h.length
  earlier := h.earlier
  nested := h.nested
  scopes := by
    obtain ⟨inner, outer, before, after⟩ := Scopes.levels_declare declared
    have fit := h.scopes
    rw [before, around_eq] at fit
    obtain ⟨first, others⟩ := List.forall₂_cons.1 fit
    have all := List.forall_mem_cons.2 ⟨seen, first⟩
    change List.Forall₂ _ scopes.levels (around s.enclosing)
    rw [after, around_eq]
    exact .cons all others
  storage := h.storage
  housed := h.housed
  returns := h.returns
  bodies := h.bodies
  closed := h.closed
  placed := { h.placed with }

lemma store (h : Fits o s) {vars : List (String × Ty)}
    (stored : ∀ name type, (name, type) ∈ vars → name ≠ resultSlot ∧ type.isData) :
    Fits (o.store s.enclosing.head? vars) s := by
  have grows : o.Grows (o.store s.enclosing.head? vars) s.enclosing.head? vars :=
    Outline.grows_store
  refine
    { h with
      scopes := h.scopes.imp fun scope part all symbol among =>
        (all symbol among).mono (grows.own_below h.housed part)
      storage := fun part name type => ?_
      housed := fun id beyond => ?_
      bodies := fun id routine found => (h.bodies id routine found).mono (grows.below h.housed _)
      closed := fun id routine found out => ?_
      placed := { h.placed with } }
  · intro among
    unfold Outline.store at among
    dsimp only at among
    split at among
    · rcases List.mem_append.1 among with before | new
      · exact h.storage part name type before
      · exact stored name type new
    · exact h.storage part name type among
  · rw [Outline.storage_store_of_ne]
    · exact h.housed id beyond
    · intro first
      exact absurd (h.old id first.symm) (Nat.not_lt.2 beyond)
  · rw [Outline.storage_store_of_ne]
    · exact h.closed id routine found out
    · intro first
      exact out (List.mem_of_mem_head? first.symm)

/-! ### Entering and leaving routines -/

/-- A head that was read makes a new routine, which begins behind all that was there before. -/
structure NewHead (s : ParseState) (head : Routine) : Prop where
  params : ∀ name type, (name, type) ∈ head.params → name ≠ resultSlot ∧ type.isData
  returns : ∀ type, head.returns = some type → type.isData
  body : ∃ span, head.body = .skip span
  locals : head.locals = []
  heads : ∀ routine ∈ s.routines, routine.span.start < head.span.start
  bodies : ∀ (id : RoutineId) (routine : Routine), s.routines[id]? = some routine →
    id ∉ s.enclosing → routine.body.span.start < head.span.start
  ahead : Parse.Ahead head.span.start s
  bodyAhead : Parse.Ahead head.body.span.start s

lemma eq_or_of_getElem?_concat {α : Type} {items : List α} {a b : α} {n : Nat}
    (h : (items ++ [a])[n]? = some b) : items[n]? = some b ∨ n = items.length ∧ a = b := by
  rcases Nat.lt_or_ge n items.length with old | new
  · rw [List.getElem?_append_left old] at h
    exact .inl h
  · rw [List.getElem?_append_right new] at h
    obtain ⟨bound, rfl⟩ := List.getElem?_eq_some_iff.1 h
    rw [List.length_singleton] at bound
    have first : n - items.length = 0 := by omega
    exact .inr ⟨by omega, by simp [first]⟩

lemma within_old (h : Fits o s) (last : Option RoutineId) {id : RoutineId}
    (old : id < s.routines.length) {part : Option RoutineId} :
    Within (o.parents ++ [last]) (some id) part ↔ Within o.parents (some id) part := by
  have more : o.parents <+: o.parents ++ [last] := List.prefix_append _ _
  refine ⟨fun within => within.restrict more h.earlier fun id' same => ?_, Within.mono more⟩
  obtain rfl := Option.some.inj same
  exact h.length ▸ old

lemma within_new (h : Fits o s) {id : RoutineId} (before : id < s.routines.length) :
    Within (o.parents ++ [s.enclosing.head?]) (some s.routines.length) (some id) ↔
      id ∈ s.enclosing := by
  have more : o.parents <+: o.parents ++ [s.enclosing.head?] := List.prefix_append _ _
  have parent :
    (o.parents ++ [s.enclosing.head?])[s.routines.length]? = some s.enclosing.head? := by
    rw [← h.length, List.getElem?_concat_length]
  constructor
  · intro within
    cases within with
    | here => exact absurd before (Nat.lt_irrefl _)
    | outward parent' further =>
      rw [parent] at parent'
      cases parent'
      exact h.nested.mem (further.restrict more h.earlier h.old)
  · intro among
    refine .outward parent ?_
    exact (h.nested.mono more).within _ (List.mem_append_left _ (List.mem_map_of_mem among))

lemma placed_enter (h : Fits o s) {head : Routine} (new : NewHead s head) :
    Placed (o.parents ++ [s.enclosing.head?]) { s with routines := s.routines ++ [head] } where
  orderly := h.placed.orderly
  heads := by
    intro routine among
    rcases List.mem_append.1 among with old | last
    · exact h.placed.heads routine old
    · obtain rfl := List.mem_singleton.1 last
      exact new.ahead
  bodies id routine found out := by
    rcases eq_or_of_getElem?_concat found with old | ⟨-, rfl⟩
    · exact h.placed.bodies id routine old out
    · exact new.bodyAhead
  order := by
    refine List.pairwise_append.2 ⟨h.placed.order, List.pairwise_singleton _ _, ?_⟩
    intro routine old last among
    obtain rfl := List.mem_singleton.1 among
    exact new.heads routine old
  inside id among later after bound := by
    rcases Nat.lt_or_ge later s.routines.length with old | beyond
    · exact (h.within_old _ old).2 (h.placed.inside id among later after old)
    · change later < (s.routines ++ [head]).length at bound
      rw [List.length_append, List.length_singleton] at bound
      obtain rfl : later = s.routines.length := Nat.le_antisymm (Nat.lt_succ_iff.1 bound) beyond
      exact (h.within_new after).2 among
  apart id later routine routine' found found' after out := by
    rcases eq_or_of_getElem?_concat found' with old' | ⟨rfl, rfl⟩
    · have bound := (List.getElem?_eq_some_iff.1 old').1
      change (s.routines ++ [head])[id]? = some routine at found
      rw [List.getElem?_append_left (Nat.lt_trans after bound)] at found
      rw [h.within_old _ bound]
      exact h.placed.apart id later routine routine' found old' after out
    · -- the new routine begins behind the body of the closed one
      change (s.routines ++ [head])[id]? = some routine at found
      rw [List.getElem?_append_left after] at found
      have behind := new.bodies id routine found out
      rw [h.within_new after]
      exact iff_of_false out (by omega)

lemma enter (h : Fits o s) {head : Routine} (new : NewHead s head) :
    Fits (o.enter s.enclosing.head? head.signature)
      { s with routines := s.routines ++ [head] } := by
  have grows : o.Grows (o.enter s.enclosing.head? head.signature) s.enclosing.head? [] :=
    Outline.grows_enter h.old
  refine
    { signatures := ?signatures
      length := ?length
      earlier := ?earlier
      nested := h.nested.mono grows.parents
      scopes := h.scopes.imp fun scope part all symbol among =>
        (all symbol among).mono (grows.own_below h.housed part)
      storage := ?storage
      housed := ?housed
      returns := ?returns
      bodies := ?bodies
      closed := ?closed
      placed := h.placed_enter new }
  case signatures =>
    rw [List.map_append, ← h.signatures]
    rfl
  case length =>
    change (o.parents ++ [_]).length = (s.routines ++ [head]).length
    rw [List.length_append, List.length_append, h.length]
    rfl
  case earlier =>
    intro id outer parent
    rcases eq_or_of_getElem?_concat parent with old | ⟨rfl, first⟩
    · exact h.earlier id outer old
    · exact h.old outer first
  case storage =>
    intro part name type stored
    change (name, type) ∈ ite _ _ _ at stored
    split at stored
    · exact new.params name type stored
    · exact h.storage part name type stored
  case housed =>
    intro id beyond
    have beyond : o.parents.length + 1 ≤ id := by
      change (o.parents ++ [_]).length ≤ id at beyond
      rwa [List.length_append, List.length_singleton] at beyond
    change ite _ _ _ = _
    rw [if_neg]
    · exact h.housed id (by omega)
    · rintro ⟨⟩
      omega
  case returns =>
    intro routine among
    rcases List.mem_append.1 among with old | last
    · exact h.returns routine old
    · obtain rfl := List.mem_singleton.1 last
      exact new.returns
  case bodies =>
    intro id routine found
    rcases eq_or_of_getElem?_concat found with old | ⟨-, rfl⟩
    · exact (h.bodies id routine old).mono (grows.below h.housed _)
    · obtain ⟨span, body⟩ := new.body
      rw [body]
      exact .skip
  case closed =>
    intro id routine found out
    change ite _ _ _ = _
    rcases eq_or_of_getElem?_concat found with old | ⟨rfl, rfl⟩
    · rw [if_neg]
      · exact h.closed id routine old out
      · rintro ⟨⟩
        rw [h.length, List.getElem?_eq_none (Nat.le_refl _)] at old
        cases old
    · rw [if_pos (by rw [h.length]), new.locals, List.append_nil]
      rfl

lemma inside (h : Fits o s) {id : RoutineId} (last : id + 1 = s.routines.length)
    (parent : o.parents[id]? = some s.enclosing.head?) :
    Fits o { s with scopes := s.scopes.push, enclosing := id :: s.enclosing } where
  signatures := h.signatures
  length := h.length
  earlier := h.earlier
  nested := .cons parent h.nested
  scopes := .cons (by simp) h.scopes
  storage := h.storage
  housed := h.housed
  returns := h.returns
  bodies := h.bodies
  closed id routine found out := h.closed id routine found (List.not_mem_of_not_mem_cons out)
  placed :=
    { h.placed with
      bodies := fun id routine found out =>
        h.placed.bodies id routine found (List.not_mem_of_not_mem_cons out)
      inside := fun id among later after bound => by
        rcases List.mem_cons.1 among with rfl | outer
        · rw [← last] at bound
          exact absurd after (Nat.not_lt.2 (Nat.lt_succ_iff.1 bound))
        · exact h.placed.inside id outer later after bound
      apart := fun id later routine routine' found found' after out =>
        h.placed.apart id later routine routine' found found' after
          (List.not_mem_of_not_mem_cons out) }

/-- The routines with the locals and the body of one of them put in. -/
def completed (routines : List Routine) (id : RoutineId) (locals : List (String × Ty))
    (body : Stmt) :
    List Routine :=
  routines.modify id fun routine => { routine with locals, body }

section

variable {routines : List Routine} {id : RoutineId} {locals : List (String × Ty)} {body : Stmt}

lemma map_completed {α : Type} {f : Routine → α}
    (same : ∀ routine, f { routine with locals, body } = f routine) :
    (completed routines id locals body).map f = routines.map f := by
  refine List.ext_getElem? fun n => ?_
  unfold completed
  rw [List.getElem?_map, List.getElem?_map, List.getElem?_modify]
  rcases routines[n]? with _ | routine
  · rfl
  · by_cases e : id = n <;> simp [e, same]

lemma of_completed {n : RoutineId} {routine : Routine}
    (h : (completed routines id locals body)[n]? = some routine) :
    ∃ before, routines[n]? = some before ∧
      (n ≠ id ∧ routine = before ∨ n = id ∧ routine = { before with locals, body }) := by
  unfold completed at h
  rw [List.getElem?_modify] at h
  obtain ⟨before, found, rfl⟩ := Option.map_eq_some_iff.1 h
  refine ⟨before, found, ?_⟩
  by_cases e : n = id
  · exact .inr ⟨e, if_pos e.symm⟩
  · exact .inl ⟨e, if_neg fun e' => e e'.symm⟩

lemma forall_completed {P : Routine → Prop}
    (same : ∀ routine, P routine → P { routine with locals, body })
    (h : ∀ routine ∈ routines, P routine) :
    ∀ routine ∈ completed routines id locals body, P routine := by
  intro routine among
  obtain ⟨n, found⟩ := List.getElem?_of_mem among
  obtain ⟨before, there, ⟨-, rfl⟩ | ⟨-, rfl⟩⟩ := of_completed found
  · exact h _ (List.mem_of_getElem? there)
  · exact same _ (h _ (List.mem_of_getElem? there))

end

section

variable {id : RoutineId} {outer : List RoutineId} {locals : List (String × Ty)} {body : Stmt}
  (innermost : s.enclosing = id :: outer)
  (behind : ∀ routine ∈ s.routines, routine.span.start < body.span.start)
  (ahead : Parse.Ahead body.span.start s)

include innermost

lemma not_mem_enclosing {n : RoutineId} (ne : n ≠ id) (closed : n ∉ outer) : n ∉ s.enclosing := by
  rw [innermost]
  exact List.not_mem_cons_of_ne_of_not_mem ne closed

include behind ahead

lemma placed_complete {parents : List (Option RoutineId)} (h : Placed parents s) :
    Placed parents { s with
      scopes := s.scopes.pop
      enclosing := outer
      routines := completed s.routines id locals body } where
  orderly := h.orderly
  heads := forall_completed (fun _ fine => fine) h.heads
  bodies n routine found closed := by
    obtain ⟨before, there, ⟨ne, rfl⟩ | ⟨rfl, rfl⟩⟩ := of_completed found
    · exact h.bodies n _ there (not_mem_enclosing innermost ne closed)
    · exact ahead
  order := by
    have starts : (completed s.routines id locals body).map (fun routine => routine.span.start) =
        s.routines.map fun routine => routine.span.start := map_completed fun _ => rfl
    refine List.pairwise_map.1 (?_ : List.Pairwise (· < ·) (List.map _ _))
    rw [starts]
    exact List.pairwise_map.2 h.order
  inside n among later after bound := by
    have bound : later < s.routines.length := Nat.lt_of_lt_of_eq bound (List.length_modify _ _ _)
    have open' : n ∈ s.enclosing := by
      rw [innermost]
      exact List.mem_cons_of_mem _ among
    exact h.inside n open' later after bound
  apart n later routine routine' found found' after closed := by
    obtain ⟨before', there', placed'⟩ := of_completed found'
    have start : routine'.span.start = before'.span.start := by
      rcases placed' with ⟨-, rfl⟩ | ⟨-, rfl⟩ <;> rfl
    rw [start]
    obtain ⟨before, there, ⟨ne, rfl⟩ | ⟨rfl, rfl⟩⟩ := of_completed found
    · exact h.apart n later _ _ there there' after (not_mem_enclosing innermost ne closed)
    -- whatever came since the closed routine was opened lies inside it, and before its body
    · have bound := (List.getElem?_eq_some_iff.1 there').1
      have open' : n ∈ s.enclosing := innermost ▸ List.mem_cons_self
      have within := h.inside n open' later after bound
      have before := behind _ (List.mem_of_getElem? there')
      exact iff_of_true within before

end

lemma storage_of_grows (h : Fits o s) {o' : Outline} (h' : Fits o' t) {part : Option RoutineId}
    {signature : Signature} {locals : List (String × Ty)}
    (grows : (o.enter part signature).Grows o' (some o.parents.length) locals) (routine : Routine)
    (found : t.routines[o.parents.length]? = some routine) :
    o'.storage (some o.parents.length) = routine.params ++ locals := by
  have signed := getElem?_mono grows.signatures (Outline.signatures_enter h.signatures_length)
  rw [h'.signatures, List.getElem?_map, found] at signed
  have params : routine.params = signature.params :=
    congrArg Signature.params (Option.some.inj signed)
  rw [grows.storage, Outline.storage_enter_self, params]

lemma complete (h : Fits o s) {id : RoutineId} {outer : List RoutineId}
    (innermost : s.enclosing = id :: outer) {locals : List (String × Ty)} {body : Stmt}
    (typed : body.WellTyped (o.sight (some id)))
    (behind : ∀ routine ∈ s.routines, routine.span.start < body.span.start)
    (ahead : Parse.Ahead body.span.start s)
    (stored : ∀ routine, s.routines[id]? = some routine →
      o.storage (some id) = routine.params ++ locals) :
    Fits o { s with
      scopes := s.scopes.pop
      enclosing := outer
      routines := completed s.routines id locals body } where
  signatures := by
    rw [h.signatures]
    exact (map_completed fun _ => rfl).symm
  length := h.length.trans (List.length_modify _ _ _).symm
  earlier := h.earlier
  nested := by
    have nested := h.nested
    rw [innermost] at nested
    exact nested.tail
  scopes := by
    have fit := h.scopes
    rw [innermost] at fit
    rcases e : s.scopes with ⟨program, _ | ⟨inner, rest⟩⟩ <;> rw [e] at fit
    · obtain ⟨-, none⟩ := List.forall₂_cons.1 fit
      cases outer <;> cases none
    · exact (List.forall₂_cons.1 fit).2
  storage := h.storage
  housed := h.housed
  returns := forall_completed (fun _ fine => fine) h.returns
  bodies n routine found := by
    obtain ⟨before, there, ⟨-, rfl⟩ | ⟨rfl, rfl⟩⟩ := of_completed found
    · exact h.bodies n _ there
    · exact typed
  closed n routine found closed := by
    obtain ⟨before, there, ⟨ne, rfl⟩ | ⟨rfl, rfl⟩⟩ := of_completed found
    · exact h.closed n _ there (not_mem_enclosing innermost ne closed)
    · exact stored before there
  placed := placed_complete innermost behind ahead h.placed

end Fits

end SmallPascal
