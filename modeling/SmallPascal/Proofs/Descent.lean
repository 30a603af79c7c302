import Mathlib.Order.Monotone.Defs
import Mathlib.Order.Nat
import SmallPascal.Proofs.Reading

/-! Readers that take tokens. Two readers that come to the same wherever few tokens are left can
call two others that agree only where fewer are left, once they have taken a token. So a repetition
or a recursion whose turns take tokens does not depend on a bound that is great enough. -/

namespace SmallPascal

open Steps

structure Tokens.EndOf (tokens whole : Tokens) : Prop where
  ends : whole.last.kind = .endOfText
  last : tokens.last = whole.last
  items : tokens.items <:+ whole.items

lemma Tokens.EndOf.tail {tokens whole : Tokens} (h : tokens.EndOf whole) :
    tokens.tail.EndOf whole :=
  ⟨h.ends, h.last, (List.tail_suffix _).trans h.items⟩

namespace Parse

variable {α β : Type} {whole : Tokens} {n m : Nat}

/-- Wherever fewer than `n` of the tokens are left, both readers come to the same. Whatever comes of
it, they only read on; behind an answer fewer tokens are left than the answer says. -/
def Agrees (whole : Tokens) (n : Nat) (left : α → Nat) (p q : Parse α) : Prop :=
  ∀ s, s.tokens.EndOf whole → s.tokens.items.length < n →
    p s = q s ∧ (p s).2.tokens.EndOf whole ∧
      ∀ a t, p s = (.ok a, t) → t.tokens.items.length < left a

lemma length_of_next {s t : ParseState} {seen taken : Token} (on : s.tokens.EndOf whole)
    (peeked : s.tokens.peek = .ok seen) (other : seen.kind ≠ .endOfText)
    (read : next s = (.ok taken, t)) :
    t.tokens.items.length + 1 = s.tokens.items.length := by
  obtain ⟨-, ⟨rfl, none⟩ | items⟩ := next_eq_ok read
  · unfold Tokens.peek at peeked
    rw [none] at peeked
    cases peeked
    exact absurd (on.last ▸ on.ends) other
  · rw [items, List.length_cons]

namespace Agrees

variable {left : α → Nat} {p q : Parse α}

/-! ### Putting readers together -/

lemma mono {left' : α → Nat} (h : Agrees whole n left p q) (few : m ≤ n)
    (more : ∀ a, left a ≤ left' a) :
    Agrees whole m left' p q := by
  intro s on less
  obtain ⟨same, on', fewer⟩ := h s on (by omega)
  exact ⟨same, on', fun a t e => Nat.lt_of_lt_of_le (fewer a t e) (more a)⟩

/-- What answers the same as the first reader agrees with the second one as well. -/
lemma congr {r : Parse α} (h : Agrees whole n left p q)
    (same : ∀ s : ParseState, s.tokens.EndOf whole → s.tokens.items.length < n → r s = p s) :
    Agrees whole n left r q := by
  intro s on less
  rw [same s on less]
  exact h s on less

lemma fewer {left : Nat → Nat} (h : ∀ k < n, Agrees whole k (fun _ => left k) p q) :
    ∀ k ≤ n - 1, Agrees whole k (fun _ => left k) p q := by
  intro k less
  rcases k with _ | k
  · exact fun s _ impossible => absurd impossible (Nat.not_lt_zero _)
  · exact h (k + 1) (by omega)

lemma pure {a : α} (h : n ≤ left a) : Agrees whole n left (pure a) (pure a) := by
  refine fun s on less => ⟨rfl, on, fun b t e => ?_⟩
  obtain ⟨rfl, rfl⟩ := pure_eq_ok.1 e
  omega

lemma throw {d : Diagnostic} : Agrees whole n left (throw d) (throw d) :=
  fun _ on _ => ⟨rfl, on, fun _ _ e => absurd e throw_ne_ok⟩

lemma fail {fault : SemanticFault} {span : Span} :
    Agrees whole n left (fail fault span) (fail fault span) :=
  throw

lemma unexpected {expected : Expectation} {found : Token} :
    Agrees whole n left (unexpected expected found) (unexpected expected found) := throw

lemma bind {left' : β → Nat} {f g : α → Parse β} (h : Agrees whole n left p q)
    (next : ∀ a, Agrees whole (left a) left' (f a) (g a)) :
    Agrees whole n left' (p >>= f) (q >>= g) := by
  intro s on less
  obtain ⟨same, on', fewer⟩ := h s on less
  rw [bind_apply, bind_apply, ← same]
  rcases e : p s with ⟨d | a, t⟩ <;> rw [e] at on'
  · exact ⟨rfl, on', nofun⟩
  · exact next a t on' (fewer a t e)

lemma map {left' : β → Nat} {f : α → β} (h : Agrees whole n left p q)
    (more : ∀ a, left a ≤ left' (f a)) :
    Agrees whole n left' (f <$> p) (f <$> q) := by
  rw [map_eq_pure_bind, map_eq_pure_bind]
  exact h.bind fun a => pure (more a)

lemma get {f g : ParseState → Parse α} (h : ∀ s, Agrees whole n left (f s) (g s)) :
    Agrees whole n left (get >>= f) (get >>= g) := fun s on less => h s s on less

lemma modify {f : ParseState → ParseState} (h : ∀ s, (f s).tokens = s.tokens) :
    Agrees whole n (fun _ => n) (modify f : Parse Unit) (modify f) := by
  refine fun s on less => ⟨rfl, (h s).symm ▸ on, fun a t e => ?_⟩
  obtain rfl := modify_eq_ok.1 e
  rwa [h s]

lemma ite {c : Prop} [Decidable c] {p' q' : Parse α} (yes : c → Agrees whole n left p q)
    (no : ¬ c → Agrees whole n left p' q') :
    Agrees whole n left (if c then p else p') (if c then q else q') := by
  split
  next holds => exact yes holds
  next fails => exact no fails

lemma cond {b : Bool} {p' q' : Parse α} (yes : Agrees whole m left p q)
    (no : Agrees whole n left p' q') :
    Agrees whole (if b then m else n) left (if b = true then p else p')
      (if b = true then q else q') := by
  cases b
  · exact no
  · exact yes

lemma refuse {fault : SemanticFault} {span : Span} {f g : β → Parse α} :
    Agrees whole n left (Parse.fail fault span >>= f) (Parse.fail fault span >>= g) :=
  fun _ on _ => ⟨rfl, on, nofun⟩

lemma require {c : Prop} [Decidable c] {fault : SemanticFault} {span : Span} {f g : Unit → Parse α}
    (h : Agrees whole n left (f ()) (g ())) :
    Agrees whole n left (if c then f () else Parse.fail fault span >>= f)
      (if c then g () else Parse.fail fault span >>= g) :=
  ite (fun _ => h) fun _ => refuse

lemma inside (prepare : ParseState → ParseState) (restore : ParseState → ParseState → ParseState)
    (h : Agrees whole n left p q) (enter : ∀ s, (prepare s).tokens = s.tokens)
    (leave : ∀ s t, (restore s t).tokens = t.tokens) :
    Agrees whole n left (fun s => let (result, t) := p (prepare s); (result, restore s t))
      (fun s => let (result, t) := q (prepare s); (result, restore s t)) := by
  intro s on less
  obtain ⟨same, on', fewer⟩ := h (prepare s) ((enter s).symm ▸ on) ((enter s).symm ▸ less)
  dsimp only
  rw [← same]
  refine ⟨rfl, (leave s _).symm ▸ on', fun a t e => ?_⟩
  obtain ⟨answer, rfl⟩ := Prod.mk.inj e
  rw [leave]
  exact fewer a _ (Prod.ext answer rfl)

/-! ### Tokens -/

lemma peek : Agrees whole n (fun _ => n) peek peek := by
  refine get fun s => ?_
  rcases s.tokens.peek with d | token
  · exact throw
  · exact pure (Nat.le_refl n)

lemma next :
    Agrees whole n (fun token => if token.kind = .endOfText then n else n - 1) next next := by
  intro s on less
  have moved : (Parse.next s).2 = { s with tokens := s.tokens.tail } := by
    unfold Parse.next
    rw [bind_of_ok get_self]
    cases s.tokens.peek <;> rfl
  refine ⟨rfl, moved ▸ on.tail, fun token t e => ?_⟩
  obtain ⟨reads, ⟨rfl, -⟩ | items⟩ := next_eq_ok e <;> dsimp only
  · rw [on.last, if_pos on.ends]
    exact Nat.lt_of_le_of_lt reads.items.length_le less
  · have length := congrArg List.length items
    rw [List.length_cons] at length
    split <;> omega

lemma next_le : Agrees whole n (fun _ => n) Parse.next Parse.next :=
  next.mono (Nat.le_refl n) fun token => by split <;> omega

lemma bind_next {f g : Token → Parse α}
    (h : ∀ token, token.kind ≠ .endOfText → Agrees whole (n - 1) left (f token) (g token))
    (ended : ∀ token, token.kind = .endOfText → Agrees whole n left (f token) (g token)) :
    Agrees whole n left (Parse.next >>= f) (Parse.next >>= g) := by
  refine next.bind fun token => ?_
  split
  next e => exact ended token e
  next other => exact h token other

lemma expect {kind : Kind} (h : kind ≠ .endOfText) :
    Agrees whole n (fun _ => n - 1) (expect kind) (expect kind) := by
  refine bind_next (fun token _ => ite (fun _ => pure (Nat.le_refl _)) fun _ => unexpected)
    fun token ended => ?_
  exact ite (fun same => absurd (same.symm.trans ended) h) fun _ => unexpected

lemma expect_le {kind : Kind} :
    Agrees whole n (fun _ => n) (Parse.expect kind) (Parse.expect kind) :=
  next_le.bind fun _ => ite (fun _ => pure (Nat.le_refl n)) fun _ => unexpected

lemma check {kind : Kind} : Agrees whole n (fun _ => n) (check kind) (check kind) :=
  peek.bind fun _ => pure (Nat.le_refl n)

lemma accept_le {kind : Kind} : Agrees whole n (fun _ => n) (accept kind) (accept kind) :=
  check.bind fun _ => ite (fun _ => next_le.bind fun _ => pure (Nat.le_refl n)) fun _ =>
    pure (Nat.le_refl n)

lemma accept {kind : Kind} (h : kind ≠ .endOfText) :
    Agrees whole n (fun found => if found then n - 1 else n) (accept kind) (accept kind) := by
  intro s on less
  have reads : Agrees whole n (fun _ => n) (Parse.accept kind) (Parse.accept kind) := accept_le
  obtain ⟨same, on', fewer⟩ := reads s on less
  refine ⟨same, on', fun found t e => ?_⟩
  cases found with
  | false => exact fewer false t e
  | true =>
    -- what is taken is the token that was seen before
    obtain ⟨seen, _, looked, e⟩ := bind_eq_ok.1 e
    obtain ⟨token, _, peeked, is⟩ := bind_eq_ok.1 looked
    obtain ⟨rfl, there⟩ := peek_eq_ok peeked
    obtain ⟨rfl, rfl⟩ := pure_eq_ok.1 is
    split at e
    next kinds =>
      obtain ⟨token', _, taken, e⟩ := bind_eq_ok.1 e
      obtain ⟨-, rfl⟩ := pure_eq_ok.1 e
      have length := length_of_next on there (by rw [of_decide_eq_true kinds]; exact h) taken
      change _ < n - 1
      omega
    next =>
      obtain ⟨impossible, -⟩ := pure_eq_ok.1 e
      cases impossible

lemma exhausted : Agrees whole n left exhausted exhausted := next_le.bind fun _ => unexpected

/-! ### Names -/

lemma lookup {name : Token} : Agrees whole n (fun _ => n) (lookup name) (lookup name) := by
  refine get fun s => ?_
  rcases s.scopes.resolve name.lexeme with _ | symbol
  · exact fail
  · exact pure (Nat.le_refl n)

lemma declare {symbol : Symbol} :
    Agrees whole n (fun _ => n) (declare symbol) (declare symbol) := by
  refine get fun s => ?_
  rcases s.scopes.declare symbol with d | scopes
  · exact throw
  · exact modify fun _ => rfl

lemma asConstant (h : Agrees whole n left p q) :
    Agrees whole n left (asConstant p) (asConstant q) :=
  inside (fun s => { s with inConstant := true })
    (fun s t => { t with inConstant := s.inConstant }) h
    (fun _ => rfl) fun _ _ => rfl

lemma inRoutine {id : RoutineId} (h : Agrees whole n left p q) :
    Agrees whole n left (inRoutine id p) (inRoutine id q) :=
  inside (fun s => { s with scopes := s.scopes.push, enclosing := id :: s.enclosing })
    (fun _ t => { t with scopes := t.scopes.pop, enclosing := t.enclosing.tail }) h
    (fun _ => rfl) fun _ _ => rfl

lemma mapM {f : α → Parse β} (h : ∀ a, Agrees whole n (fun _ => n) (f a) (f a)) (items : List α) :
    Agrees whole n (fun _ => n) (items.mapM f) (items.mapM f) := by
  induction items with
  | nil => exact pure (Nat.le_refl n)
  | cons a rest ih =>
    rw [List.mapM_cons]
    exact (h a).bind fun _ => ih.bind fun _ => pure (Nat.le_refl n)

lemma forM {f : α → Parse Unit} (h : ∀ a, Agrees whole n (fun _ => n) (f a) (f a))
    (items : List α) :
    Agrees whole n (fun _ => n) (items.forM f) (items.forM f) := by
  induction items with
  | nil => exact pure (Nat.le_refl n)
  | cons a rest ih => exact (h a).bind fun _ => ih

end Agrees

/-! ### Recursion -/

section

variable {ι : Type} {left : Nat → Nat} {turn turn' : (ι → Parse α) → ι → Parse α}
    {f g : Nat → ι → Parse α}

/-- Wherever fewer than `n` tokens are left, the turns agree on readers that agree where fewer are
left. -/
def Guarded (whole : Tokens) (n : Nat) (left : Nat → Nat)
    (turn turn' : (ι → Parse α) → ι → Parse α) : Prop :=
  ∀ m ≤ n, ∀ q r, (∀ k < m, ∀ i, Agrees whole k (fun _ => left k) (q i) (r i)) →
    ∀ i, Agrees whole m (fun _ => left m) (turn q i) (turn' r i)

/-- Each reader calls in its turn for the reader with the next smaller bound. -/
def Bounds (turn : (ι → Parse α) → ι → Parse α) (f : Nat → ι → Parse α) : Prop :=
  ∀ bound i s, f (bound + 1) i s = turn (f bound) i s

/-- The reader whose bound is one more than the number of tokens. -/
def unbounded (f : Nat → ι → Parse α) (i : ι) : Parse α := do f (← budget) i

lemma unbounded_apply (f : Nat → ι → Parse α) (i : ι) (s : ParseState) :
    unbounded f i s = f (s.tokens.items.length + 1) i s := rfl

namespace Guarded

lemma bounded (h : Guarded whole n left turn turn') (hf : Bounds turn f) (hg : Bounds turn' g) :
    ∀ m ≤ n, ∀ b c, m ≤ b → m ≤ c → ∀ i, Agrees whole m (fun _ => left m) (f b i) (g c i) := by
  intro m
  induction m using Nat.strongRecOn with
  | ind m ih =>
    rintro few (_ | b) (_ | c) below below' i s on less
    any_goals omega
    rw [hf, hg]
    exact h m few (f b) (g c) (fun k less => ih k less (by omega) b c (by omega) (by omega)) i
      s on less

lemma unbounded_left (h : Guarded whole n left turn turn') (mono : Monotone left)
    (hf : Bounds turn f) (hg : Bounds turn' g) {bound : Nat} (below : n ≤ bound) (i : ι) :
    Agrees whole n (fun _ => left n) (unbounded f i) (g bound i) := by
  intro s on less
  rw [unbounded_apply]
  have agreed := h.bounded hf hg (s.tokens.items.length + 1) less _ _ (Nat.le_refl _)
    (Nat.le_trans less below) i
  exact agreed.mono (Nat.le_refl _) (fun _ => mono less) s on (Nat.lt_succ_self _)

lemma unbounded (h : Guarded whole n left turn turn') (mono : Monotone left) (hf : Bounds turn f)
    (hg : Bounds turn' g) (i : ι) :
    Agrees whole n (fun _ => left n) (unbounded f i) (Parse.unbounded g i) := by
  intro s on less
  have fewer : Guarded whole (s.tokens.items.length + 1) left turn turn' :=
    fun m few => h m (Nat.le_trans few less)
  have agreed := fewer.unbounded_left mono hf hg (Nat.le_refl _) i
  exact agreed.mono (Nat.le_refl _) (fun _ => mono less) s on (Nat.lt_succ_self _)

/-- A turn comes to what the reader does without a bound, if it is given the same where fewer tokens
are left. -/
lemma turn_eq (h : ∀ n, Guarded whole n left turn turn) (mono : Monotone left) (hf : Bounds turn f)
    {s : ParseState} (on : s.tokens.EndOf whole) {q : ι → Parse α}
    (same : ∀ t i, t.tokens.EndOf whole → t.tokens.items.length < s.tokens.items.length →
      q i t = Parse.unbounded f i t) (i : ι) : turn q i s = Parse.unbounded f i s := by
  rw [unbounded_apply, hf]
  refine (h _ _ (Nat.le_refl _) q _ (fun k less i => ?_) i s on (Nat.lt_succ_self _)).1
  refine ((h k).unbounded_left mono hf hf (Nat.le_of_lt_succ less) i).congr fun t on' less' => ?_
  exact same t i on' (by omega)

end Guarded

end

/-! ### Repetition -/

/-- One turn of reading items as long as `more` says so, given how the rest of them is read. -/
def manyOf (more : Parse Bool) (item : Parse α) (rest : Parse (List α)) : Parse (List α) := do
  if ← more then
    let first ← item
    let others ← rest
    return first :: others
  else return []

/-- One turn of extending what was read, given how that goes on. -/
def extendOf (step : α → Parse (Option α)) (again : α → Parse α) (a : α) : Parse α := do
  match ← step a with
  | some b => again b
  | none => return a

abbrev single (turn : Parse α → Parse α) (q : Unit → Parse α) : Unit → Parse α :=
  fun _ => turn (q ())

variable {more more' : Parse Bool} {item item' : Parse α} {step step' : α → Parse (Option α)}

/-- Wherever one more item is read, a token is taken. -/
def Turns (whole : Tokens) (n : Nat) (more more' : Parse Bool) (item item' : Parse α) : Prop :=
  ∀ m ≤ n, ∃ k, Agrees whole m (fun found => if found then k else m) more more' ∧
    Agrees whole k (fun _ => m - 1) item item'

/-- Wherever something is extended, a token is taken. -/
def Grows (whole : Tokens) (n : Nat) (step step' : α → Parse (Option α)) : Prop :=
  ∀ m ≤ n, ∀ a, Agrees whole m (fun found => if found.isSome then m - 1 else m) (step a) (step' a)

lemma Turns.guarded (h : Turns whole n more more' item item') :
    Guarded whole n id (single (manyOf more item)) (single (manyOf more' item')) := by
  intro m few q r same _
  obtain ⟨k, asked, taken⟩ := h m few
  refine asked.bind fun found => .cond ?_ (.pure (Nat.le_refl m))
  have others := Agrees.fewer (fun k less => same k less ()) (m - 1) (Nat.le_refl _)
  exact taken.bind fun first => others.bind fun rest => .pure (Nat.sub_le m 1)

lemma Grows.guarded (h : Grows whole n step step') :
    Guarded whole n id (extendOf step) (extendOf step') := by
  intro m few q r same a
  refine (h m few a).bind fun found => ?_
  cases found with
  | none => exact .pure (Nat.le_refl m)
  | some b =>
    have again := Agrees.fewer (fun k less => same k less b) (m - 1) (Nat.le_refl _)
    exact again.mono (Nat.le_refl _) fun _ => Nat.sub_le m 1

lemma bounds_many (more : Parse Bool) (item : Parse α) :
    Bounds (single (manyOf more item)) fun bound _ => manyWithin more item bound := fun _ _ _ => rfl

lemma bounds_extend (step : α → Parse (Option α)) :
    Bounds (extendOf step) fun bound => extendWithin step bound := fun _ _ _ => rfl

namespace Agrees

lemma many (h : Turns whole n more more' item item') :
    Agrees whole n (fun _ => n) (many more item) (many more' item') :=
  h.guarded.unbounded monotone_id (bounds_many more item) (bounds_many more' item') ()

lemma extend (h : Grows whole n step step') (a : α) :
    Agrees whole n (fun _ => n) (extend step a) (extend step' a) :=
  h.guarded.unbounded monotone_id (bounds_extend step) (bounds_extend step') a

/-- What separators stand between takes no more tokens than its first item, which need not take
any. -/
lemma separated {separator : Kind} {left : Nat} (notEnd : separator ≠ .endOfText) (few : left ≤ n)
    (first : Agrees whole n (fun _ => left) item item')
    (h : ∀ m ≤ n, Agrees whole m (fun _ => m) item item') :
    Agrees whole n (fun _ => left) (separated separator item) (separated separator item') := by
  refine first.bind fun _ => (many fun m less => ⟨m - 1, accept notEnd, ?_⟩).bind fun _ =>
    pure (Nat.le_refl _)
  exact h (m - 1) (by omega)

end Agrees

end Parse

end SmallPascal
