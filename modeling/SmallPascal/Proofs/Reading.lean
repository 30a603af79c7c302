import Mathlib.Data.List.Forall2
import SmallPascal.Parse.Basic
import SmallPascal.Proofs.Steps

/-! What the steps of a reader do to what it knows. Most of them only read on; a repetition keeps
whatever each of its turns keeps. -/

namespace SmallPascal

open Steps

structure ReadsOn (s t : ParseState) : Prop where
  same : t = { s with tokens := t.tokens }
  items : t.tokens.items <:+ s.tokens.items
  last : t.tokens.last = s.tokens.last

namespace ReadsOn

variable {s t u : ParseState}

lemma refl (s : ParseState) : ReadsOn s s := ⟨rfl, List.suffix_refl _, rfl⟩

lemma trans (h : ReadsOn s t) (h' : ReadsOn t u) : ReadsOn s u := by
  refine ⟨?_, h'.items.trans h.items, h'.last.trans h.last⟩
  rw [h'.same, h.same]

lemma scopes (h : ReadsOn s t) : t.scopes = s.scopes := by rw [h.same]

lemma routines (h : ReadsOn s t) : t.routines = s.routines := by rw [h.same]

lemma enclosing (h : ReadsOn s t) : t.enclosing = s.enclosing := by rw [h.same]

lemma mem {token : Token} (h : ReadsOn s t) (found : .ok token ∈ t.tokens.items) :
    .ok token ∈ s.tokens.items := h.items.mem found

end ReadsOn

namespace Parse

variable {α : Type} {s t u : ParseState}

/-! ### Tokens -/

lemma unexpected_ne_ok {expected : Expectation} {found : Token} {a : α} :
    unexpected expected found s ≠ (.ok a, t) := throw_ne_ok

lemma fail_ne_ok {fault : SemanticFault} {span : Span} {a : α} :
    fail fault span s ≠ (.ok a, t) := throw_ne_ok

lemma peek_eq_ok {token : Token} (h : peek s = (.ok token, t)) :
    s = t ∧ s.tokens.peek = .ok token := by
  unfold peek at h
  obtain ⟨_, _, got, h⟩ := bind_eq_ok.1 h
  obtain ⟨rfl, rfl⟩ := get_eq_ok.1 got
  rcases found : s.tokens.peek with d | seen <;> simp only [found] at h
  · exact absurd h throw_ne_ok
  · obtain ⟨rfl, rfl⟩ := pure_eq_ok.1 h
    exact ⟨rfl, rfl⟩

lemma next_eq_ok {token : Token} (h : next s = (.ok token, t)) :
    ReadsOn s t ∧ (token = s.tokens.last ∧ s.tokens.items = [] ∨
      s.tokens.items = .ok token :: t.tokens.items) := by
  unfold next at h
  obtain ⟨_, _, got, h⟩ := bind_eq_ok.1 h
  obtain ⟨rfl, rfl⟩ := get_eq_ok.1 got
  obtain ⟨_, _, moved, h⟩ := bind_eq_ok.1 h
  rw [modify_eq_ok] at moved
  subst moved
  rcases found : s.tokens.peek with d | seen <;> simp only [found] at h
  · exact absurd h throw_ne_ok
  · obtain ⟨rfl, rfl⟩ := pure_eq_ok.1 h
    refine ⟨⟨rfl, List.tail_suffix _, rfl⟩, ?_⟩
    unfold Tokens.peek at found
    split at found
    next e => cases found; exact .inl ⟨rfl, e⟩
    next item rest e => subst found; exact .inr (by simp [Tokens.tail, e])

lemma exhausted_ne_ok {a : α} : exhausted s ≠ (.ok a, t) := by
  intro h
  obtain ⟨_, _, -, h⟩ := bind_eq_ok.1 h
  exact unexpected_ne_ok h

lemma expect_eq_ok {kind : Kind} {token : Token} (h : expect kind s = (.ok token, t)) :
    token.kind = kind ∧ next s = (.ok token, t) := by
  unfold expect at h
  obtain ⟨found, s₁, taken, h⟩ := bind_eq_ok.1 h
  split at h
  next e =>
    obtain ⟨rfl, rfl⟩ := pure_eq_ok.1 h
    exact ⟨e, taken⟩
  next => exact absurd h unexpected_ne_ok

lemma readsOn_expect {kind : Kind} {token : Token} (h : expect kind s = (.ok token, t)) :
    ReadsOn s t := (next_eq_ok (expect_eq_ok h).2).1

lemma check_eq_ok {kind : Kind} {b : Bool} (h : check kind s = (.ok b, t)) : s = t := by
  unfold check at h
  obtain ⟨_, _, seen, h⟩ := bind_eq_ok.1 h
  obtain ⟨rfl, -⟩ := peek_eq_ok seen
  exact (pure_eq_ok.1 h).2

lemma readsOn_accept {kind : Kind} {b : Bool} (h : accept kind s = (.ok b, t)) : ReadsOn s t := by
  unfold accept at h
  obtain ⟨_, _, seen, h⟩ := bind_eq_ok.1 h
  obtain rfl := check_eq_ok seen
  split at h
  · obtain ⟨_, _, taken, h⟩ := bind_eq_ok.1 h
    obtain ⟨-, rfl⟩ := pure_eq_ok.1 h
    exact (next_eq_ok taken).1
  · obtain ⟨-, rfl⟩ := pure_eq_ok.1 h
    exact .refl s

lemma budget_eq_ok {n : Nat} (h : budget s = (.ok n, t)) : s = t := by
  unfold budget at h
  obtain ⟨_, _, got, h⟩ := bind_eq_ok.1 h
  obtain ⟨rfl, rfl⟩ := get_eq_ok.1 got
  exact (pure_eq_ok.1 h).2

/-! ### Repetition -/

lemma manyWithin_keeps {more : Parse Bool} {item : Parse α} {P : List α → ParseState → Prop}
    (hmore : ∀ done s b t, P done s → more s = (.ok b, t) → P done t)
    (hitem : ∀ done s a t, P done s → item s = (.ok a, t) → P (done ++ [a]) t) {bound : Nat} :
    ∀ {done s items t}, P done s → manyWithin more item bound s = (.ok items, t) →
      P (done ++ items) t := by
  induction bound with
  | zero => exact fun _ h => absurd h exhausted_ne_ok
  | succ bound ih =>
    intro done s items t kept h
    obtain ⟨b, s₁, asked, h⟩ := bind_eq_ok.1 h
    have kept₁ := hmore _ _ _ _ kept asked
    split at h
    · obtain ⟨a, s₂, first, h⟩ := bind_eq_ok.1 h
      obtain ⟨rest, s₃, others, h⟩ := bind_eq_ok.1 h
      obtain ⟨rfl, rfl⟩ := pure_eq_ok.1 h
      have := ih (hitem _ _ _ _ kept₁ first) others
      rwa [List.append_assoc] at this
    · obtain ⟨rfl, rfl⟩ := pure_eq_ok.1 h
      rwa [List.append_nil]

/-- What holds between the items read so far and the reader holds at the end, if each turn keeps
it. -/
lemma many_keeps {more : Parse Bool} {item : Parse α} {P : List α → ParseState → Prop}
    (hmore : ∀ done s b t, P done s → more s = (.ok b, t) → P done t)
    (hitem : ∀ done s a t, P done s → item s = (.ok a, t) → P (done ++ [a]) t)
    {items : List α} (kept : P [] s) (h : many more item s = (.ok items, t)) : P items t := by
  obtain ⟨_, _, counted, h⟩ := bind_eq_ok.1 h
  obtain rfl := budget_eq_ok counted
  exact manyWithin_keeps hmore hitem kept h

lemma extendWithin_keeps {step : α → Parse (Option α)} {P : α → ParseState → Prop}
    (hstep : ∀ a s b? t, P a s → step a s = (.ok b?, t) → P (b?.getD a) t) {bound : Nat} :
    ∀ {a s b t}, P a s → extendWithin step bound a s = (.ok b, t) → P b t := by
  induction bound with
  | zero => exact fun _ h => absurd h exhausted_ne_ok
  | succ bound ih =>
    intro a s b t kept h
    obtain ⟨found, s₁, tried, h⟩ := bind_eq_ok.1 h
    have kept₁ := hstep _ _ _ _ kept tried
    cases found with
    | some c => exact ih kept₁ h
    | none =>
      obtain ⟨rfl, rfl⟩ := pure_eq_ok.1 h
      exact kept₁

/-- What holds of what was read so far holds at the end, if each extension keeps it. -/
lemma extend_keeps {step : α → Parse (Option α)} {P : α → ParseState → Prop}
    (hstep : ∀ a s b? t, P a s → step a s = (.ok b?, t) → P (b?.getD a) t) {a b : α} (kept : P a s)
    (h : extend step a s = (.ok b, t)) : P b t := by
  obtain ⟨_, _, counted, h⟩ := bind_eq_ok.1 h
  obtain rfl := budget_eq_ok counted
  exact extendWithin_keeps hstep kept h

/-! ### Names -/

lemma lookup_eq_ok {name : Token} {symbol : Symbol} (h : lookup name s = (.ok symbol, t)) :
    s = t ∧ s.scopes.resolve name.lexeme = some symbol := by
  unfold lookup at h
  obtain ⟨_, _, got, h⟩ := bind_eq_ok.1 h
  obtain ⟨rfl, rfl⟩ := get_eq_ok.1 got
  rcases found : s.scopes.resolve name.lexeme with _ | resolved <;> simp only [found] at h
  · exact absurd h fail_ne_ok
  · obtain ⟨rfl, rfl⟩ := pure_eq_ok.1 h
    exact ⟨rfl, rfl⟩

lemma declare_eq_ok {symbol : Symbol} {u : Unit} (h : declare symbol s = (.ok u, t)) :
    ∃ scopes, s.scopes.declare symbol = .ok scopes ∧ { s with scopes } = t := by
  unfold declare at h
  obtain ⟨_, _, got, h⟩ := bind_eq_ok.1 h
  obtain ⟨rfl, rfl⟩ := get_eq_ok.1 got
  rcases declared : s.scopes.declare symbol with d | scopes <;> simp only [declared] at h
  · exact absurd h throw_ne_ok
  · exact ⟨scopes, rfl, modify_eq_ok.1 h⟩

/-! ### Readers that only read on -/

structure Knowledge where
  holds : ParseState → Prop
  stays : ∀ {s t}, holds s → ReadsOn s t → holds t

/-- Wherever a reader knows this much, it only reads on, and what it answers is good. -/
def Reads (known : Knowledge) (good : α → Prop) (p : Parse α) : Prop :=
  ∀ s a t, known.holds s → p s = (.ok a, t) → ReadsOn s t ∧ good a

namespace Reads

variable {β : Type} {known : Knowledge} {good : α → Prop} {fine : β → Prop}

lemma found (good : α → Prop) {p : Parse α} {a : α} (holds : known.holds s) (e : p s = (.ok a, t))
    (h : Reads known good p) : ReadsOn s t ∧ good a := h s a t holds e

lemma pure {a : α} (h : good a) : Reads known good (pure a) := by
  intro s b t _ e
  obtain ⟨rfl, rfl⟩ := pure_eq_ok.1 e
  exact ⟨.refl s, h⟩

lemma throw {d : Diagnostic} : Reads known good (throw d) := fun _ _ _ _ e => absurd e throw_ne_ok

lemma fail {fault : SemanticFault} {span : Span} : Reads known good (fail fault span) := throw

lemma unexpected {expected : Expectation} {found : Token} :
    Reads known good (unexpected expected found) := throw

lemma exhausted : Reads known good exhausted := fun _ _ _ _ e => absurd e exhausted_ne_ok

lemma imp {good' : α → Prop} {p : Parse α} (h : Reads known good p)
    (weaker : ∀ a, good a → good' a) : Reads known good' p :=
  fun s a t holds e => (h s a t holds e).imp_right (weaker a)

lemma bind {p : Parse α} {f : α → Parse β} (h : Reads known good p)
    (next : ∀ a, good a → Reads known fine (f a)) : Reads known fine (p >>= f) := by
  intro s b u holds e
  obtain ⟨a, t, first, e⟩ := bind_eq_ok.1 e
  obtain ⟨on, ha⟩ := h s a t holds first
  obtain ⟨on', hb⟩ := next a ha t b u (known.stays holds on) e
  exact ⟨on.trans on', hb⟩

lemma get {f : ParseState → Parse α} (h : ∀ s, known.holds s → Reads known good (f s)) :
    Reads known good (get >>= f) := by
  intro s b u holds e
  obtain ⟨_, _, got, e⟩ := bind_eq_ok.1 e
  obtain ⟨rfl, rfl⟩ := get_eq_ok.1 got
  exact h s holds s b u holds e

lemma map {f : α → β} {p : Parse α} (h : Reads known good p) (next : ∀ a, good a → fine (f a)) :
    Reads known fine (f <$> p) := by
  rw [map_eq_pure_bind]
  exact h.bind fun a ha => pure (next a ha)

lemma stop {p : Parse α} {f : α → Parse β} (h : Reads known (fun _ => False) p) :
    Reads known fine (p >>= f) := h.bind fun _ impossible => impossible.elim

lemma require {condition : Prop} [Decidable condition] {p : Parse Unit} {f : Unit → Parse α}
    (refused : Reads known (fun _ => False) p) (h : condition → Reads known good (f ())) :
    Reads known good (if condition then f () else p >>= f) := by
  split
  next holds => exact h holds
  next => exact refused.stop

lemma peek : Reads known (fun _ => True) peek := by
  intro s a t _ e
  obtain ⟨rfl, -⟩ := peek_eq_ok e
  exact ⟨.refl s, trivial⟩

lemma next : Reads known (fun _ => True) next := fun _ _ _ _ e => ⟨(next_eq_ok e).1, trivial⟩

lemma expect {kind : Kind} : Reads known (fun _ => True) (expect kind) :=
  fun _ _ _ _ e => ⟨readsOn_expect e, trivial⟩

lemma check {kind : Kind} : Reads known (fun _ => True) (check kind) := by
  intro s a t _ e
  obtain rfl := check_eq_ok e
  exact ⟨.refl s, trivial⟩

lemma accept {kind : Kind} : Reads known (fun _ => True) (accept kind) :=
  fun _ _ _ _ e => ⟨readsOn_accept e, trivial⟩

lemma budget : Reads known (fun _ => True) budget := by
  intro s a t _ e
  obtain rfl := budget_eq_ok e
  exact ⟨.refl s, trivial⟩

lemma many {more : Parse Bool} {item : Parse α} (hmore : Reads known (fun _ => True) more)
    (hitem : Reads known good item) :
    Reads known (fun items => ∀ a ∈ items, good a) (many more item) := by
  intro s items t holds e
  let P (done : List α) (u : ParseState) : Prop := ReadsOn s u ∧ ∀ a ∈ done, good a
  refine many_keeps (P := P) ?_ ?_ ⟨.refl s, by simp⟩ e
  · rintro done u b v ⟨on, all⟩ asked
    have still := known.stays holds on
    have on' := (hmore u b v still asked).1
    exact ⟨on.trans on', all⟩
  · rintro done u a v ⟨on, all⟩ taken
    have still := known.stays holds on
    obtain ⟨on', ha⟩ := hitem u a v still taken
    refine ⟨on.trans on', fun b among => ?_⟩
    rcases List.mem_append.1 among with earlier | new
    · exact all b earlier
    · obtain rfl := List.mem_singleton.1 new
      exact ha

lemma separated {separator : Kind} {item : Parse α} (hitem : Reads known good item) :
    Reads known (fun items => ∀ a ∈ items, good a) (separated separator item) := by
  refine hitem.bind fun a ha => ?_
  refine (many accept hitem).bind fun rest hrest => pure ?_
  intro b among
  rcases List.mem_cons.1 among with rfl | later
  · exact ha
  · exact hrest b later

lemma extend {step : α → Parse (Option α)} {a : α}
    (hstep : ∀ a, good a → Reads known (fun b? => ∀ b, b? = some b → good b) (step a))
    (h : good a) :
    Reads known good (extend step a) := by
  intro s b t holds e
  let P (a : α) (u : ParseState) : Prop := ReadsOn s u ∧ good a
  refine extend_keeps (P := P) ?_ ⟨.refl s, h⟩ e
  rintro a u b? v ⟨on, ha⟩ tried
  have still := known.stays holds on
  obtain ⟨on', hb⟩ := hstep a ha u b? v still tried
  refine ⟨on.trans on', ?_⟩
  cases b? with
  | some b => exact hb b rfl
  | none => exact ha

lemma mapM {f : α → Parse β} {R : α → β → Prop} {items : List α}
    (h : ∀ a ∈ items, Reads known (R a) (f a)) :
    Reads known (List.Forall₂ R items) (items.mapM f) := by
  induction items with
  | nil => exact pure .nil
  | cons a rest ih =>
    rw [List.mapM_cons]
    have first := h a List.mem_cons_self
    have others := ih fun a among => h a (List.mem_cons_of_mem _ among)
    refine first.bind fun b hb => others.bind fun bs hbs => ?_
    exact pure (.cons hb hbs)

end Reads

end Parse

end SmallPascal
