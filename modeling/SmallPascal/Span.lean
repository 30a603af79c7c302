/-!
Places in a source text: the position of a character, and the region that a token or a node covers.
-/

namespace SmallPascal

/-- The number of characters before a place, and its line and column, both counted from 1. -/
structure Position where
  offset : Nat
  line : Nat
  column : Nat
deriving DecidableEq

namespace Position

def start : Position := ⟨0, 1, 1⟩

/-- The place just after the character `c`: a line feed begins the next line. -/
def step (p : Position) (c : Char) : Position :=
  if c = '\n' then ⟨p.offset + 1, p.line + 1, 1⟩ else ⟨p.offset + 1, p.line, p.column + 1⟩

/-- The place just after the characters `cs`. -/
def after (p : Position) (cs : List Char) : Position := cs.foldl step p

@[simp] theorem after_nil (p : Position) : p.after [] = p := rfl

@[simp] theorem after_cons (p : Position) (c : Char) (cs : List Char) :
    p.after (c :: cs) = (p.step c).after cs := rfl

theorem after_append (p : Position) (cs ds : List Char) :
    p.after (cs ++ ds) = (p.after cs).after ds := by
  simp [after]

@[simp] theorem offset_step (p : Position) (c : Char) : (p.step c).offset = p.offset + 1 := by
  unfold step; split <;> rfl

@[simp] theorem offset_after (p : Position) (cs : List Char) :
    (p.after cs).offset = p.offset + cs.length := by
  induction cs generalizing p with
  | nil => rfl
  | cons c cs ih => rw [after_cons, ih, offset_step, List.length_cons]; omega

end Position

/-- The characters numbered from `start` up to, not including, `stop`; the line and column are
those of the first one. -/
structure Span where
  start : Nat
  stop : Nat
  line : Nat
  column : Nat
deriving DecidableEq

namespace Span

/-- The region from the place `p` up to the place `q`. -/
def between (p q : Position) : Span := ⟨p.offset, q.offset, p.line, p.column⟩

/-- Stretches `s` to the end of `t`; it keeps its first character and never shrinks. -/
def through (s t : Span) : Span := { s with stop := max t.stop s.stop }

@[simp] theorem through_self (s : Span) : s.through s = s := by simp [through]

theorem through_assoc (s t u : Span) : (s.through t).through u = s.through (t.through u) := by
  simp [through, Nat.max_assoc]

theorem stop_le_stop_through (s t : Span) : s.stop ≤ (s.through t).stop := Nat.le_max_right ..

theorem stop_le_stop_through_right (s t : Span) : t.stop ≤ (s.through t).stop := Nat.le_max_left ..

end Span

end SmallPascal
