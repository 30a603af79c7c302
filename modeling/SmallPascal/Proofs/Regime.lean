import SmallPascal.Parse.Basic
import SmallPascal.Proofs.Steps

/-!
What is true of a reader whatever comes of it. A reading can fail at any token, so each step has to
say what is known behind it in either case, and what it fails with; a regime fixes these for all
steps at once. -/

namespace SmallPascal

open Steps

/-- What is known of a reader all the time, of the tokens that it takes, and of what it fails
with. -/
structure Regime (ρ : Type) where
  known : ParseState ρ → Prop
  token : Token → Prop
  refusal : Diagnostic → Prop

namespace Regime

variable {ρ : Type}

structure Lawful (r : Regime ρ) : Prop where
  peek : ∀ {s}, r.known s → Accounts r.refusal r.token s.tokens.peek
  tail : ∀ {s}, r.known s → r.known { s with tokens := s.tokens.tail }
  syntactic : ∀ {expected found}, r.token found →
    r.refusal ⟨.syntactic ⟨expected, found⟩, found.span⟩

end Regime

namespace Parse

/-- Under the regime the reader stays known whatever comes of it, and that is good or in order. -/
def Keeps {ρ α : Type} (r : Regime ρ) (good : α → Prop) (p : Reading ρ α) : Prop :=
  Upholds r.known r.refusal good p

namespace Keeps

variable {ρ α β : Type} {r : Regime ρ} {good : α → Prop} {fine : β → Prop}

/-! ### Putting readers together -/

lemma pure {a : α} (h : good a) : Keeps r good (pure a) := Upholds.pure h

lemma throw {d : Diagnostic} (h : r.refusal d) : Keeps r good (throw d) := Upholds.throw h

lemma fail {fault : SemanticFault} {span : Span} (h : r.refusal ⟨.semantic fault, span⟩) :
    Keeps r good (fail fault span) := throw h

lemma imp {good' : α → Prop} {p : Reading ρ α} (h : Keeps r good p)
    (weaker : ∀ a, good a → good' a) : Keeps r good' p := Upholds.imp h weaker

lemma bind {p : Reading ρ α} {f : α → Reading ρ β} (h : Keeps r good p)
    (next : ∀ a, good a → Keeps r fine (f a)) : Keeps r fine (p >>= f) := Upholds.bind h next

lemma map {f : α → β} {p : Reading ρ α} (h : Keeps r good p) (next : ∀ a, good a → fine (f a)) :
    Keeps r fine (f <$> p) := by
  rw [map_eq_pure_bind]
  exact h.bind fun a ha => pure (next a ha)

lemma get {f : ParseState ρ → Reading ρ α} (h : ∀ s, r.known s → Keeps r good (f s)) :
    Keeps r good (get >>= f) := fun s known => h s known s known

lemma modify {f : ParseState ρ → ParseState ρ} (h : ∀ s, r.known s → r.known (f s)) :
    Keeps r (fun _ => True) (modify f : Reading ρ Unit) := fun s known => ⟨h s known, trivial⟩

lemma ite {c : Prop} [Decidable c] {p q : Reading ρ α} (yes : c → Keeps r good p)
    (no : ¬ c → Keeps r good q) : Keeps r good (if c then p else q) := by
  split
  next holds => exact yes holds
  next fails => exact no fails

lemma stop {p : Reading ρ α} {f : α → Reading ρ β} (h : Keeps r (fun _ => False) p) :
    Keeps r fine (p >>= f) :=
  h.bind fun _ impossible => impossible.elim

lemma require {c : Prop} [Decidable c] {p : Reading ρ Unit} {f : Unit → Reading ρ α}
    (refused : Keeps r (fun _ => False) p) (h : c → Keeps r good (f ())) :
    Keeps r good (if c then f () else p >>= f) := ite h fun _ => refused.stop

/-! ### Tokens -/

variable (law : r.Lawful)

include law

lemma peek : Keeps r r.token peek := by
  refine get fun s known => ?_
  have suits := law.peek known
  rcases e : s.tokens.peek with d | token <;> rw [e] at suits
  · exact throw suits
  · exact pure suits

lemma next : Keeps r r.token next := by
  intro s known
  have eq : Parse.next s = (s.tokens.peek, { s with tokens := s.tokens.tail }) := by
    unfold Parse.next
    rw [bind_of_ok get_self]
    cases s.tokens.peek <;> rfl
  rw [eq]
  exact ⟨law.tail known, law.peek known⟩

lemma unexpected {expected : Expectation} {found : Token} (h : r.token found) :
    Keeps r good (unexpected expected found) := throw (law.syntactic h)

lemma expect {kind : Kind} : Keeps r (fun token => token.kind = kind ∧ r.token token)
    (expect kind) :=
  (next law).bind fun _ taken => ite (fun same => pure ⟨same, taken⟩) fun _ => unexpected law taken

lemma check {kind : Kind} : Keeps r (fun _ => True) (check kind) :=
    (peek law).bind fun _ _ => pure trivial

lemma accept {kind : Kind} : Keeps r (fun _ => True) (accept kind) :=
  (check law).bind fun _ _ =>
    ite (fun _ => (next law).bind fun _ _ => pure trivial) fun _ => pure trivial

omit law in
lemma budget : Keeps r (fun _ => True) budget := get fun _ _ => pure trivial

lemma exhausted : Keeps r good exhausted := (next law).bind fun _ => unexpected law

/-! ### Repetition -/

lemma manyWithin {more : Reading ρ Bool} {item : Reading ρ α} (hmore : Keeps r (fun _ => True) more)
    (hitem : Keeps r good item) :
    ∀ bound, Keeps r (fun items => ∀ a ∈ items, good a) (manyWithin more item bound)
  | 0 => exhausted law
  | bound + 1 => by
    refine hmore.bind fun _ _ => ite (fun _ => ?_) fun _ => pure (by simp)
    refine hitem.bind fun a ha => (manyWithin hmore hitem bound).bind fun rest hrest => ?_
    exact pure (List.forall_mem_cons.2 ⟨ha, hrest⟩)

lemma many {more : Reading ρ Bool} {item : Reading ρ α} (hmore : Keeps r (fun _ => True) more)
    (hitem : Keeps r good item) : Keeps r (fun items => ∀ a ∈ items, good a) (many more item) :=
  budget.bind fun bound _ => manyWithin law hmore hitem bound

lemma separated {separator : Kind} {item : Reading ρ α} (h : Keeps r good item) :
    Keeps r (fun items => ∀ a ∈ items, good a) (separated separator item) :=
  h.bind fun _ ha => (many law (accept law) h).bind fun _ hrest =>
    pure (List.forall_mem_cons.2 ⟨ha, hrest⟩)

lemma extendWithin {step : α → Reading ρ (Option α)}
    (h : ∀ a, good a → Keeps r (fun b? => ∀ b, b? = some b → good b) (step a)) :
    ∀ bound a, good a → Keeps r good (extendWithin step bound a)
  | 0, _, _ => exhausted law
  | bound + 1, a, ha => by
    refine (h a ha).bind fun b? hb => ?_
    cases b? with
    | some b => exact extendWithin h bound b (hb b rfl)
    | none => exact pure ha

lemma extend {step : α → Reading ρ (Option α)} {a : α}
    (h : ∀ a, good a → Keeps r (fun b? => ∀ b, b? = some b → good b) (step a)) (ha : good a) :
    Keeps r good (extend step a) := budget.bind fun bound _ => extendWithin law h bound a ha

omit law in
lemma mapM {f : α → Reading ρ β} {items : List α} (h : ∀ a ∈ items, Keeps r fine (f a)) :
    Keeps r (fun bs => ∀ b ∈ bs, fine b) (items.mapM f) := by
  induction items with
  | nil => exact pure (by simp)
  | cons a rest ih =>
    rw [List.mapM_cons]
    have first := h a List.mem_cons_self
    have others := ih fun a among => h a (List.mem_cons_of_mem _ among)
    exact first.bind fun b hb => others.bind fun bs hbs => pure (List.forall_mem_cons.2 ⟨hb, hbs⟩)

omit law in
lemma forM {f : α → Reading ρ Unit} {items : List α}
    (h : ∀ a ∈ items, Keeps r (fun _ => True) (f a)) :
    Keeps r (fun _ => True) (items.forM f) := by
  induction items with
  | nil => exact pure trivial
  | cons a rest ih =>
    have first := h a List.mem_cons_self
    exact first.bind fun _ _ => ih fun a among => h a (List.mem_cons_of_mem _ among)

/-! ### Names -/

omit law in
lemma declare {symbol : Symbol} (h : ∀ s, r.known s → match s.scopes.declare symbol with
      | .ok scopes => r.known { s with scopes }
      | .error d => r.refusal d) :
    Keeps r (fun _ => True) (declare symbol) := by
  intro s known
  have entered := h s known
  unfold Parse.declare
  rw [bind_of_ok get_self]
  rcases e : s.scopes.declare symbol with d | scopes <;> rw [e] at entered
  · exact ⟨known, entered⟩
  · exact ⟨entered, trivial⟩

omit law in
/-- A reader inside another one, which prepares what is known and restores it whatever comes of
it. -/
lemma inside {r' : Regime ρ} {p : Reading ρ α} (prepare : ParseState ρ → ParseState ρ)
    (restore : ParseState ρ → ParseState ρ → ParseState ρ) (h : Keeps r' good p)
    (enter : ∀ s, r.known s → r'.known (prepare s))
    (leave : ∀ s t, r.known s → r'.known t → r.known (restore s t))
    (refused : ∀ d, r'.refusal d → r.refusal d) :
    Keeps r good (fun s => let (result, t) := p (prepare s); (result, restore s t)) := by
  intro s known
  obtain ⟨known', suits⟩ := h (prepare s) (enter s known)
  exact ⟨leave s _ known known', suits.imp refused fun _ => id⟩

end Keeps

end Parse

end SmallPascal
