import SmallPascal.Proofs.Blame
import SmallPascal.Proofs.Fitting
import SmallPascal.Proofs.Places

/-! What a reader leaves behind whatever comes of its reading, and where in the text it is. Two
places say how far it is: what comes next begins behind one of them, and ends behind the other. They
differ only behind a statement that is empty, which has the place of the token that it stands
before. -/

namespace SmallPascal

open Steps

/-! ### What is read -/

def Value.Single (value : Value) : Prop := value.tag ≠ .array

/-- A node as a reader makes it: it has the place of its text, its parts lie inside it, and a
literal is no array. -/
structure Node.Fine (cs : List Char) (node : Node) : Prop where
  faithful : node.span.Faithful cs
  covers : ∀ child ∈ node.children, node.span.Covers child.span
  single : ∀ value type span, node = .expr (.literal value type span) → value.Single

/-- A routine of the number that the name stands for has that name, and the parameters and the type
of result of the symbol. -/
def Symbol.Entered (routines : List Routine) (symbol : Symbol) : Prop :=
  match symbol.meaning with
  | .function id => ∃ routine returns, routines[id]? = some routine ∧ routine.name = symbol.name ∧
    routine.returns = some returns ∧ symbol.type = .function routine.params returns
  | .procedure id => ∃ routine, routines[id]? = some routine ∧ routine.name = symbol.name ∧
    routine.returns = none ∧ symbol.type = .procedure routine.params
  | _ => True

lemma Symbol.Entered.mono {routines more : List Routine} {symbol : Symbol}
    (h : symbol.Entered routines) : symbol.Entered (routines ++ more) := by
  have there {id : RoutineId} {routine : Routine} (found : routines[id]? = some routine) :
      (routines ++ more)[id]? = some routine := getElem?_mono (List.prefix_append _ _) found
  unfold Symbol.Entered at h ⊢
  split at h
  · obtain ⟨routine, returns, found, rest⟩ := h
    exact ⟨routine, returns, there found, rest⟩
  · obtain ⟨routine, found, rest⟩ := h
    exact ⟨routine, there found, rest⟩
  · trivial

lemma Symbol.Entered.completed {routines : List Routine} {symbol : Symbol}
    (h : symbol.Entered routines) (id : RoutineId) (locals : List (String × Ty)) (body : Stmt) :
    symbol.Entered (Fits.completed routines id locals body) := by
  have there {n : RoutineId} {routine : Routine} (found : routines[n]? = some routine) :
      ∃ routine', (Fits.completed routines id locals body)[n]? = some routine' ∧
        routine'.name = routine.name ∧ routine'.params = routine.params ∧
        routine'.returns = routine.returns := by
    unfold Fits.completed
    rw [List.getElem?_modify, found]
    by_cases e : id = n
    · exact ⟨_, congrArg some (if_pos e), rfl, rfl, rfl⟩
    · exact ⟨_, congrArg some (if_neg e), rfl, rfl, rfl⟩
  unfold Symbol.Entered at h ⊢
  split at h
  · obtain ⟨routine, returns, found, rest⟩ := h
    obtain ⟨routine', found', name, params, same⟩ := there found
    refine ⟨routine', returns, found', ?_⟩
    rwa [name, params, same]
  · obtain ⟨routine, found, rest⟩ := h
    obtain ⟨routine', found', name, params, same⟩ := there found
    refine ⟨routine', found', ?_⟩
    rwa [name, params, same]
  · trivial

def Symbol.Single (symbol : Symbol) : Prop :=
  ∀ value, symbol.meaning = .constant value → value.Single

namespace ParseState

structure Sound (cs : List Char) (s : ParseState) : Prop where
  tokens : s.tokens.Faithful cs
  entered : ∀ scope ∈ s.scopes.levels, ∀ symbol ∈ scope, symbol.Entered s.routines
  single : ∀ scope ∈ s.scopes.levels, ∀ symbol ∈ scope, symbol.Single
  routines : ∀ routine ∈ s.routines,
    routine.span.Faithful cs ∧ (Node.stmt routine.body).Throughout (Node.Fine cs)

/-- The second reader is in the same part of the program as the first one. -/
structure Resumes (s t : ParseState) : Prop where
  depth : t.scopes.depth = s.scopes.depth
  enclosing : t.enclosing = s.enclosing
  inConstant : t.inConstant = s.inConstant

variable {cs : List Char} {s t u : ParseState}

lemma Resumes.refl (s : ParseState) : s.Resumes s := ⟨rfl, rfl, rfl⟩

lemma Resumes.trans (h : s.Resumes t) (h' : t.Resumes u) : s.Resumes u :=
  ⟨h'.depth.trans h.depth, h'.enclosing.trans h.enclosing, h'.inConstant.trans h.inConstant⟩

lemma Sound.resolve (h : s.Sound cs) {name : String} {symbol : Symbol}
    (found : s.scopes.resolve name = some symbol) : symbol.Single := by
  obtain ⟨scope, among, found⟩ := List.exists_of_findSome?_eq_some found
  exact h.single scope among symbol (List.mem_of_find?_eq_some found)

lemma Sound.leave (h : t.Sound cs) :
    Sound cs { t with scopes := t.scopes.pop, enclosing := t.enclosing.tail } := by
  have outer (scope) (among : scope ∈ t.scopes.pop.levels) : scope ∈ t.scopes.levels := by
    rcases List.mem_append.1 among with nested | program
    · exact List.mem_append_left _ (List.mem_of_mem_tail nested)
    · exact List.mem_append_right _ program
  exact ⟨h.tokens, fun scope among => h.entered scope (outer scope among),
    fun scope among => h.single scope (outer scope among), h.routines⟩

lemma Resumes.leave {id : RoutineId}
    (h : Resumes { s with scopes := s.scopes.push, enclosing := id :: s.enclosing } t) :
    s.Resumes { t with scopes := t.scopes.pop, enclosing := t.enclosing.tail } := by
  refine ⟨?_, congrArg List.tail h.enclosing, h.inConstant⟩
  have depth : t.scopes.nested.length + 1 = s.scopes.nested.length + 1 + 1 := h.depth
  change t.scopes.nested.tail.length + 1 = s.scopes.nested.length + 1
  rw [List.length_tail]
  omega

end ParseState

/-! ### Where a reader is -/

structure Mark where
  front : Nat
  reach : Nat
  order : front ≤ reach

namespace Mark

structure Before (m m' : Mark) : Prop where
  front : m.front ≤ m'.front
  reach : m.reach ≤ m'.reach

lemma Before.refl (m : Mark) : m.Before m := ⟨Nat.le_refl _, Nat.le_refl _⟩

lemma Before.trans {m m' m'' : Mark} (h : m.Before m') (h' : m'.Before m'') : m.Before m'' :=
  ⟨Nat.le_trans h.front h'.front, Nat.le_trans h.reach h'.reach⟩

structure At (m : Mark) (tokens : Tokens) : Prop where
  front : m.front ≤ tokens.ahead.start
  reach : m.reach ≤ tokens.ahead.stop

def start : Mark := ⟨0, 0, Nat.le_refl 0⟩

lemma at_start (tokens : Tokens) : start.At tokens := ⟨Nat.zero_le _, Nat.zero_le _⟩

end Mark

structure Token.Taken (cs : List Char) (m m' : Mark) (token : Token) : Prop where
  faithful : token.span.Faithful cs
  front : m.front ≤ token.span.start
  reach : m.reach ≤ token.span.stop
  behind : token.span.stop ≤ m'.front

structure Node.Lies (cs : List Char) (low high : Nat) (node : Node) : Prop where
  fine : node.Throughout (Node.Fine cs)
  low : low ≤ node.span.start
  high : node.span.stop ≤ high

namespace Node.Lies

variable {cs : List Char} {low low' high high' : Nat} {node : Node}

lemma mono (h : node.Lies cs low high) (lower : low' ≤ low) (higher : high ≤ high') :
    node.Lies cs low' high' :=
  ⟨h.fine, Nat.le_trans lower h.low, Nat.le_trans h.high higher⟩

lemma faithful (h : node.Lies cs low high) : node.span.Faithful cs := h.fine.self.faithful

lemma tight (h : node.Lies cs low high) : node.Lies cs low node.span.stop :=
  ⟨h.fine, h.low, Nat.le_refl _⟩

lemma expr {e : Expr} (h : (Node.expr e).Lies cs low high) :
    low ≤ e.span.start ∧ e.span.start ≤ e.span.stop ∧ e.span.stop ≤ high :=
  ⟨h.low, h.faithful.order, h.high⟩

lemma stmt {s : Stmt} (h : (Node.stmt s).Lies cs low high) :
    low ≤ s.span.start ∧ s.span.start ≤ s.span.stop ∧ s.span.stop ≤ high :=
  ⟨h.low, h.faithful.order, h.high⟩

lemma whole (faithful : node.span.Faithful cs)
    (single : ∀ value type span, node = .expr (.literal value type span) → value.Single)
    (parts : ∀ child ∈ node.children, child.Lies cs node.span.start node.span.stop)
    (lower : low ≤ node.span.start) (higher : node.span.stop ≤ high) : node.Lies cs low high := by
  refine ⟨Node.throughout_iff.2 ⟨⟨faithful, fun child direct => ?_, single⟩,
    fun child direct => (parts child direct).fine⟩, lower, higher⟩
  exact ⟨(parts child direct).low, (parts child direct).high⟩

/-- A node from one place of the text through another, with its parts between them. -/
lemma through {first last : Span} (is : node.span = first.through last) (begins : first.Faithful cs)
    (ends : last.Faithful cs)
    (single : ∀ value type span, node = .expr (.literal value type span) → value.Single)
    (parts : ∀ child ∈ node.children, child.Lies cs first.start last.stop)
    (lower : low ≤ first.start) (higher : first.stop ≤ high) (higher' : last.stop ≤ high) :
    node.Lies cs low high := by
  have stop := Span.stop_le_stop_through_right first last
  refine whole (is ▸ begins.through ends) single ?_ ?_ ?_ <;> rw [is]
  · exact fun child direct => (parts child direct).mono (Nat.le_refl _) stop
  · exact lower
  · exact Nat.max_le.2 ⟨higher', higher⟩

end Node.Lies

namespace Parse

/-- An answer is good at a later mark, which the tokens have come to; a failure has a place in the
text. -/
def Arrives {α : Type} (cs : List Char) (m : Mark) (good : α → Mark → Prop) (tokens : Tokens) :
    Except Diagnostic α → Prop
  | .ok a => ∃ m', m.Before m' ∧ good a m' ∧ m'.At tokens
  | .error d => d.span.Faithful cs

/-- From the mark on, the reader stays sound and where it is in the program whatever comes of it,
and arrives somewhere. -/
def Tracks {α : Type} (cs : List Char) (m : Mark) (good : α → Mark → Prop) (p : Parse α) : Prop :=
  ∀ s, s.Sound cs → m.At s.tokens → (p s).2.Sound cs ∧ s.Resumes (p s).2 ∧
    Arrives cs m good (p s).2.tokens (p s).1

variable {α β : Type} {cs : List Char} {m : Mark} {good : α → Mark → Prop} {fine : β → Mark → Prop}

lemma Arrives.imp {m' : Mark} {good' : α → Mark → Prop} {tokens : Tokens}
    {answer : Except Diagnostic α} (h : Arrives cs m good tokens answer) (before : m'.Before m)
    (weaker : ∀ a m'', m.Before m'' → good a m'' → good' a m'') :
    Arrives cs m' good' tokens answer := by
  cases answer with
  | error d => exact h
  | ok a =>
    obtain ⟨m'', later, ha, there⟩ := h
    exact ⟨m'', before.trans later, weaker a m'' later ha, there⟩

namespace Tracks

/-! ### Putting readers together -/

lemma pure {a : α} (h : good a m) : Tracks cs m good (pure a) :=
  fun s sound here => ⟨sound, .refl s, m, .refl m, h, here⟩

lemma throw {d : Diagnostic} (h : d.span.Faithful cs) : Tracks cs m good (throw d) :=
  fun s sound _ => ⟨sound, .refl s, h⟩

lemma fail {fault : SemanticFault} {span : Span} (h : span.Faithful cs) :
    Tracks cs m good (Parse.fail fault span) := throw h

lemma unexpected {expected : Expectation} {found : Token} (h : found.span.Faithful cs) :
    Tracks cs m good (unexpected expected found) := throw h

lemma imp {good' : α → Mark → Prop} {p : Parse α} (h : Tracks cs m good p)
    (weaker : ∀ a m', m.Before m' → good a m' → good' a m') : Tracks cs m good' p := by
  intro s sound here
  obtain ⟨sound, resumes, arrives⟩ := h s sound here
  exact ⟨sound, resumes, arrives.imp (.refl m) weaker⟩

lemma bind {p : Parse α} {f : α → Parse β} (h : Tracks cs m good p)
    (next : ∀ a m', m.Before m' → good a m' → Tracks cs m' fine (f a)) :
    Tracks cs m fine (p >>= f) := by
  intro s sound here
  have first := h s sound here
  rw [bind_apply]
  rcases e : p s with ⟨d | a, t⟩ <;> rw [e] at first
  · exact first
  · obtain ⟨sound, resumes, m', before, ha, there⟩ := first
    obtain ⟨sound, resumes', arrives⟩ := next a m' before ha t sound there
    exact ⟨sound, resumes.trans resumes', arrives.imp before fun _ _ _ => id⟩

lemma map {f : α → β} {p : Parse α} (h : Tracks cs m good p)
    (next : ∀ a m', m.Before m' → good a m' → fine (f a) m') : Tracks cs m fine (f <$> p) := by
  rw [map_eq_pure_bind]
  exact h.bind fun a m' before ha => pure (next a m' before ha)

lemma get {f : ParseState → Parse α} (h : ∀ s, s.Sound cs → Tracks cs m good (f s)) :
    Tracks cs m good (get >>= f) := fun s sound here => h s sound s sound here

lemma ite {c : Prop} [Decidable c] {p q : Parse α} (yes : c → Tracks cs m good p)
    (no : ¬ c → Tracks cs m good q) : Tracks cs m good (if c then p else q) := by
  split
  next holds => exact yes holds
  next fails => exact no fails

lemma stop {p : Parse α} {f : α → Parse β} (h : Tracks cs m (fun _ _ => False) p) :
    Tracks cs m fine (p >>= f) :=
  h.bind fun _ _ _ impossible => impossible.elim

lemma require {c : Prop} [Decidable c] {fault : SemanticFault} {span : Span} {f : Unit → Parse α}
    (place : span.Faithful cs) (h : c → Tracks cs m good (f ())) :
    Tracks cs m good (if c then f () else Parse.fail fault span >>= f) :=
  ite h fun _ => (fail place).stop

/-! ### Tokens -/

lemma faithful_ahead {s : ParseState} (sound : s.Sound cs) : s.tokens.ahead.Faithful cs := by
  refine sound.tokens.spans _ ?_
  rcases s.tokens.spans_eq with ⟨-, spans, -⟩ | spans <;> rw [spans] <;> exact List.mem_cons_self

lemma peek : Tracks cs m (fun token m' => token.span.Faithful cs ∧ m.front ≤ token.span.start ∧
    token.span.stop ≤ m'.reach) peek := by
  intro s sound here
  have faithful := faithful_ahead sound
  have eq : Parse.peek s = (s.tokens.peek, s) := by
    unfold Parse.peek
    rw [bind_of_ok get_self]
    cases s.tokens.peek <;> rfl
  rw [eq]
  refine ⟨sound, .refl s, ?_⟩
  dsimp only
  rcases e : s.tokens.peek with d | token <;> unfold Tokens.ahead at faithful <;> rw [e] at faithful
  · exact faithful
  · obtain ⟨front, reach⟩ := here
    unfold Tokens.ahead at front reach
    rw [e] at front reach
    refine ⟨⟨token.span.start, token.span.stop, faithful.order⟩, ⟨front, reach⟩,
      ⟨faithful, front, Nat.le_refl _⟩, ?_, ?_⟩ <;>
    · unfold Tokens.ahead
      rw [e]
      exact Nat.le_refl _

lemma faithful_tail {tokens : Tokens} (h : tokens.Faithful cs) :
    tokens.tail.Faithful cs ∧ tokens.ahead.stop ≤ tokens.tail.ahead.start := by
  rcases tokens.spans_eq with ⟨none, -, last⟩ | spans
  · have same : tokens.tail = tokens := by
      unfold Tokens.tail
      rw [none]
      cases tokens; cases none; rfl
    rw [same, last, h.start, h.stop]
    exact ⟨h, Nat.le_refl _⟩
  · have faithful := h.spans
    have order := h.order
    rw [spans] at faithful order
    obtain ⟨behind, order⟩ := List.pairwise_cons.1 order
    refine ⟨⟨(List.forall_mem_cons.1 faithful).2, order, fun token among =>
      h.inner token (List.mem_of_mem_tail among), h.last, h.start, h.stop⟩, ?_⟩
    refine behind _ ?_
    rcases tokens.tail.spans_eq with ⟨-, spans, -⟩ | spans <;> rw [spans] <;>
      exact List.mem_cons_self

lemma next : Tracks cs m (fun token m' => token.Taken cs m m') next := by
  intro s sound here
  have faithful := faithful_ahead sound
  obtain ⟨tail, behind⟩ := faithful_tail sound.tokens
  have eq : Parse.next s = (s.tokens.peek, { s with tokens := s.tokens.tail }) := by
    unfold Parse.next
    rw [bind_of_ok get_self]
    cases s.tokens.peek <;> rfl
  rw [eq]
  refine ⟨⟨tail, sound.entered, sound.single, sound.routines⟩, ⟨rfl, rfl, rfl⟩, ?_⟩
  dsimp only
  obtain ⟨front, reach⟩ := here
  have order := (faithful_ahead (s := { s with tokens := s.tokens.tail })
    ⟨tail, sound.entered, sound.single, sound.routines⟩).order
  unfold Tokens.ahead at faithful front reach behind
  rcases e : s.tokens.peek with d | token <;> rw [e] at faithful front reach behind
  · exact faithful
  · have forward := faithful.order
    refine ⟨⟨token.span.stop, token.span.stop, Nat.le_refl _⟩, ⟨Nat.le_trans front forward, reach⟩,
      ⟨faithful, front, reach, Nat.le_refl _⟩, behind, Nat.le_trans behind order⟩

lemma expect {kind : Kind} : Tracks cs m (fun token m' => token.Taken cs m m') (expect kind) :=
  next.bind fun _ _ _ taken => ite (fun _ => pure taken) fun _ => unexpected taken.faithful

lemma check {kind : Kind} : Tracks cs m (fun _ _ => True) (check kind) :=
  peek.bind fun _ _ _ _ => pure trivial

lemma accept {kind : Kind} :
    Tracks cs m (fun found m' => found = true → ∃ token : Token, token.Taken cs m m')
      (accept kind) := by
  refine check.bind fun _ m' before _ => ite (fun _ => ?_) fun _ => pure fun none => nomatch none
  refine next.bind fun token m'' _ taken => pure fun _ =>
    ⟨token, taken.faithful, ?_, ?_, taken.behind⟩
  · exact Nat.le_trans before.front taken.front
  · exact Nat.le_trans before.reach taken.reach

lemma budget : Tracks cs m (fun _ _ => True) budget := get fun _ _ => pure trivial

lemma exhausted : Tracks cs m good exhausted :=
  next.bind fun _ _ _ taken => unexpected taken.faithful

/-! ### Repetition -/

section

variable (G : Nat → Nat → α → Prop)
  (mono : ∀ {low low' high high' a}, low' ≤ low → high ≤ high' → G low high a → G low' high' a)

include mono

lemma manyWithin {more : Parse Bool} {item : Parse α}
    (hmore : ∀ m, Tracks cs m (fun _ _ => True) more)
    (hitem : ∀ m, Tracks cs m (fun a m' => G m.front m'.reach a) item) :
    ∀ bound m, Tracks cs m (fun items m' => ∀ a ∈ items, G m.front m'.reach a)
      (manyWithin more item bound)
  | 0, _ => exhausted
  | bound + 1, m => by
    refine (hmore m).bind fun _ m₁ before₁ _ => ite (fun _ => ?_) fun _ => pure (by simp)
    refine (hitem m₁).bind fun a m₂ before₂ ha => ?_
    refine (manyWithin hmore hitem bound m₂).bind fun rest m₃ before₃ hrest => pure ?_
    refine List.forall_mem_cons.2 ⟨mono before₁.front before₃.reach ha, fun b among => ?_⟩
    exact mono (Nat.le_trans before₁.front before₂.front) (Nat.le_refl _) (hrest b among)

lemma many {more : Parse Bool} {item : Parse α} (hmore : ∀ m, Tracks cs m (fun _ _ => True) more)
    (hitem : ∀ m, Tracks cs m (fun a m' => G m.front m'.reach a) item) :
    Tracks cs m (fun items m' => ∀ a ∈ items, G m.front m'.reach a) (many more item) := by
  refine budget.bind fun bound m₁ before _ => (manyWithin G mono hmore hitem bound m₁).imp ?_
  exact fun items _ _ all a among => mono before.front (Nat.le_refl _) (all a among)

lemma separated {separator : Kind} {item : Parse α}
    (hitem : ∀ m, Tracks cs m (fun a m' => G m.front m'.reach a) item) :
    Tracks cs m (fun items m' => ∀ a ∈ items, G m.front m'.reach a) (separated separator item) := by
  refine (hitem m).bind fun a m₁ before₁ ha => ?_
  refine (many G mono (fun m => accept.imp fun _ _ _ _ => trivial) hitem).bind
    fun rest m₂ before₂ hrest => pure ?_
  refine List.forall_mem_cons.2 ⟨mono (Nat.le_refl _) before₂.reach ha, fun b among => ?_⟩
  exact mono before₁.front (Nat.le_refl _) (hrest b among)

end

lemma extendWithin (good : α → Mark → Prop) {step : α → Parse (Option α)}
    (later : ∀ {a m m'}, m.Before m' → good a m → good a m')
    (hstep : ∀ a m', m.Before m' → good a m' →
      Tracks cs m' (fun b? m'' => ∀ b ∈ b?, good b m'') (step a)) :
    ∀ bound a m', m.Before m' → good a m' → Tracks cs m' good (extendWithin step bound a)
  | 0, _, _, _, _ => exhausted
  | bound + 1, a, m', before, ha => by
    refine (hstep a m' before ha).bind fun b? m₁ before₁ hb => ?_
    cases b? with
    | some b => exact extendWithin good later hstep bound b m₁ (before.trans before₁) (hb b rfl)
    | none => exact pure (later before₁ ha)

lemma extend (good : α → Mark → Prop) {step : α → Parse (Option α)} {a : α}
    (later : ∀ {a m m'}, m.Before m' → good a m → good a m')
    (hstep : ∀ a m', m.Before m' → good a m' →
      Tracks cs m' (fun b? m'' => ∀ b ∈ b?, good b m'') (step a))
    (ha : good a m) : Tracks cs m good (extend step a) :=
  budget.bind fun bound m₁ before _ =>
    (extendWithin good later hstep bound a m₁ before (later before ha))

lemma mapM {f : α → Parse β} {sound : β → Prop} {items : List α}
    (h : ∀ a ∈ items, ∀ m, Tracks cs m (fun b _ => sound b) (f a)) :
    Tracks cs m (fun bs _ => ∀ b ∈ bs, sound b) (items.mapM f) := by
  induction items generalizing m with
  | nil => exact pure (by simp)
  | cons a rest ih =>
    rw [List.mapM_cons]
    have first := h a List.mem_cons_self m
    refine first.bind fun b _ _ hb => ?_
    refine (ih fun a among => h a (List.mem_cons_of_mem _ among)).bind fun bs _ _ hbs => ?_
    exact pure (List.forall_mem_cons.2 ⟨hb, hbs⟩)

lemma forM {f : α → Parse Unit} {items : List α}
    (h : ∀ a ∈ items, ∀ m, Tracks cs m (fun _ _ => True) (f a)) :
    Tracks cs m (fun _ _ => True) (items.forM f) := by
  induction items generalizing m with
  | nil => exact pure trivial
  | cons a rest ih =>
    have first := h a List.mem_cons_self m
    exact first.bind fun _ _ _ _ => ih fun a among => h a (List.mem_cons_of_mem _ among)

/-! ### Names -/

lemma lookup {name : Token} (place : name.span.Faithful cs) :
    Tracks cs m (fun symbol _ => symbol.Single) (lookup name) := by
  refine get fun s sound => ?_
  rcases e : s.scopes.resolve name.lexeme with _ | symbol
  · exact fail place
  · exact pure (sound.resolve e)

lemma declare_apply (symbol : Symbol) (s : ParseState) : Parse.declare symbol s =
    match s.scopes.declare symbol with
    | .ok scopes => (.ok (), { s with scopes })
    | .error d => (.error d, s) := by
  unfold Parse.declare
  rw [bind_of_ok get_self]
  rcases s.scopes.declare symbol with d | scopes <;> rfl

lemma place_of_declare {scopes : Scopes} {symbol : Symbol} {d : Diagnostic}
    (h : scopes.declare symbol = .error d) : d.span = symbol.span := by
  unfold Scopes.declare at h
  split at h <;> cases h
  rfl

lemma depth_of_declare {scopes scopes' : Scopes} {symbol : Symbol}
    (h : scopes.declare symbol = .ok scopes') : scopes'.depth = scopes.depth := by
  unfold Scopes.declare at h
  split at h <;> cases h
  exact Scopes.depth_setCurrent _ _

lemma levels_of_declare {scopes scopes' : Scopes} {symbol : Symbol} {P : Symbol → Prop}
    (h : scopes.declare symbol = .ok scopes')
    (old : ∀ scope ∈ scopes.levels, ∀ symbol ∈ scope, P symbol)
    (new : P symbol) : ∀ scope ∈ scopes'.levels, ∀ symbol ∈ scope, P symbol := by
  obtain ⟨inner, outer, before, after⟩ := Scopes.levels_declare h
  rw [before] at old
  rw [after]
  obtain ⟨first, others⟩ := List.forall_mem_cons.1 old
  exact List.forall_mem_cons.2 ⟨List.forall_mem_cons.2 ⟨new, first⟩, others⟩

lemma declare {symbol : Symbol} (place : symbol.span.Faithful cs) (single : symbol.Single)
    (entered : ∀ routines, symbol.Entered routines) :
    Tracks cs m (fun _ _ => True) (declare symbol) := by
  intro s sound here
  rw [declare_apply]
  rcases e : s.scopes.declare symbol with d | scopes
  · exact ⟨sound, .refl s, (place_of_declare e ▸ place :)⟩
  · refine ⟨⟨sound.tokens, ?_, ?_, sound.routines⟩, ⟨depth_of_declare e, rfl, rfl⟩,
      m, .refl m, trivial, here⟩
    · exact levels_of_declare e sound.entered (entered s.routines)
    · exact levels_of_declare e sound.single single

lemma asConstant {p : Parse α} (h : Tracks cs m good p) : Tracks cs m good (asConstant p) := by
  intro s sound here
  obtain ⟨sound, resumes, arrives⟩ := h { s with inConstant := true }
    ⟨sound.tokens, sound.entered, sound.single, sound.routines⟩ here
  exact ⟨⟨sound.tokens, sound.entered, sound.single, sound.routines⟩,
    ⟨resumes.depth, resumes.enclosing, rfl⟩, arrives⟩

/-- The scope that is opened for a routine is closed again, whatever comes of the reading inside. -/
lemma inRoutine {p : Parse α} (id : RoutineId) (h : Tracks cs m good p) :
    Tracks cs m good (inRoutine id p) := by
  intro s sound here
  obtain ⟨inner, resumes, arrives⟩ := h
    { s with scopes := s.scopes.push, enclosing := id :: s.enclosing }
    ⟨sound.tokens, List.forall_mem_cons.2 ⟨by simp, sound.entered⟩,
      List.forall_mem_cons.2 ⟨by simp, sound.single⟩, sound.routines⟩ here
  exact ⟨inner.leave, resumes.leave, arrives⟩

end Tracks

end Parse

end SmallPascal
