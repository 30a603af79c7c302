import SmallPascal.Proofs.TrackingPrograms

/-! One reader that is asked again and again, for a program or for an expression, whatever came of
it before. It stays in the program's own scope, and its names of routines stay good, until it has
read a program; then it stands at the end of the text for good. -/

namespace SmallPascal

open Steps

/-! ### What a reader can be asked for -/

inductive Demand where
  | program | wholeExpression | expression
deriving DecidableEq

inductive Reply where
  | program (read : Program)
  | expression (read : Expr)

def Demand.read {ρ : Type} [Record ρ] : Demand → Reading ρ Reply
  | .program => .program <$> Parse.program
  | .wholeExpression => .expression <$> Parse.wholeExpression
  | .expression => .expression <$> Parse.expression

namespace ParseState

/-- The reader behind demands that were made one after the other, whatever came of them. -/
def asked (s : ParseState) (demands : List Demand) : ParseState :=
  demands.foldl (fun s demand => (demand.read s).2) s

/-- Of the demands made one after the other, one for a program succeeds. -/
def Finishes (s : ParseState) (demands : List Demand) : Prop :=
  ∃ before read t, before ++ [.program] <+: demands ∧ Parse.program (s.asked before) = (.ok read, t)

variable {cs : List Char} {s t : ParseState} {demands : List Demand} {demand : Demand}

lemma asked_append_singleton :
    s.asked (demands ++ [demand]) = (demand.read (s.asked demands)).2 := by
  simp [asked]

lemma finishes_append_singleton : s.Finishes (demands ++ [demand]) ↔ s.Finishes demands ∨
    demand = .program ∧ ∃ read t, Parse.program (s.asked demands) = (.ok read, t) := by
  simp only [Finishes, List.prefix_concat_iff]
  constructor
  · rintro ⟨before, read, t, whole | earlier, found⟩
    · obtain ⟨rfl, ⟨⟩⟩ := List.append_inj' whole rfl
      exact .inr ⟨rfl, read, t, found⟩
    · exact .inl ⟨before, read, t, earlier, found⟩
  · rintro (⟨before, read, t, earlier, found⟩ | ⟨rfl, read, t, found⟩)
    · exact ⟨before, read, t, .inr earlier, found⟩
    · exact ⟨demands, read, t, .inl rfl, found⟩

structure Outside (s : ParseState) : Prop where
  depth : s.scopes.depth = 1
  enclosing : s.enclosing = []
  inConstant : s.inConstant = false

lemma Outside.resumes (h : s.Outside) (resumes : s.Resumes t) : t.Outside :=
  ⟨resumes.depth.trans h.depth, resumes.enclosing.trans h.enclosing,
    resumes.inConstant.trans h.inConstant⟩

structure Spent (cs : List Char) (s : ParseState) : Prop where
  items : s.tokens.items = []
  kind : s.tokens.last.kind = .endOfText
  start : s.tokens.last.span.start = cs.length
  stop : s.tokens.last.span.stop = cs.length

end ParseState

namespace Parse

variable {α β : Type} {cs : List Char} {s : ParseState}

/-! ### At the end of the text -/

/-- The reader expects something else than the end of the text, and leaves everything as it was. -/
def Refuses (s : ParseState) (p : Parse α) : Prop :=
  ∃ expected, p s = (.error ⟨.syntactic ⟨expected, s.tokens.last⟩, s.tokens.last.span⟩, s)

lemma Refuses.bind {p : Parse α} {f : α → Parse β} (h : Refuses s p) : Refuses s (p >>= f) := by
  obtain ⟨expected, refused⟩ := h
  refine ⟨expected, ?_⟩
  rw [bind_apply, refused]

lemma Refuses.map {p : Parse α} {f : α → β} (h : Refuses s p) : Refuses s (f <$> p) := by
  rw [map_eq_pure_bind]
  exact h.bind

namespace Spent

variable (spent : s.Spent cs)

include spent

lemma next : next s = (.ok s.tokens.last, s) := by
  obtain ⟨⟨items, last⟩, _⟩ := s
  cases spent.items
  rfl

lemma expect {kind : Kind} (other : kind ≠ .endOfText) : Refuses s (expect kind) := by
  refine ⟨.token kind, (bind_of_ok (next spent)).trans ?_⟩
  have ends := spent.kind
  rw [if_neg fun same => other (same.symm.trans ends)]
  rfl

lemma term : Refuses s term := by
  have budget : budget s = (.ok 1, s) := by
    unfold Parse.budget
    rw [bind_of_ok get_self, spent.items]
    rfl
  refine ⟨.expression, (bind_of_ok budget).trans ((bind_of_ok (next spent)).trans ?_)⟩
  rw [spent.kind]
  rfl

lemma expression : Refuses s expression := ((term spent).bind).bind

lemma read (demand : Demand) : Refuses s demand.read := by
  cases demand with
  | program => exact ((expect spent (by decide)).bind).map
  | wholeExpression => exact ((expression spent).bind).map
  | expression => exact (expression spent).map

end Spent

/-! ### Before the end of the text -/

/-- **A demand leaves the reader sound and where it was**, or has read a program up to the end of
the text. -/
lemma read_outcome (sound : s.Sound cs) (demand : Demand) :
    ((demand.read s).2.Sound cs ∧ s.Resumes (demand.read s).2 ∧
      ∀ read t, demand = .program → program s ≠ (.ok read, t)) ∨
    demand = .program ∧ (∃ read t, program s = (.ok read, t)) ∧ (demand.read s).2.Spent cs ∧
      s.Resumes (demand.read s).2 := by
  have expression : Tracks cs .start (fun _ _ => True) expression :=
    (tracks_expression _).imp fun _ _ _ _ => trivial
  have tracked {p : Parse Reply} (h : Tracks cs .start (fun _ _ => True) p) :
      (p s).2.Sound cs ∧ s.Resumes (p s).2 :=
    ⟨(h s sound (Mark.at_start _)).1, (h s sound (Mark.at_start _)).2.1⟩
  cases demand with
  | wholeExpression =>
    have whole : Tracks cs .start (fun _ _ => True) wholeExpression :=
      expression.bind fun _ _ _ _ => Tracks.expect.bind fun _ _ _ _ => .pure trivial
    obtain ⟨sound, resumes⟩ := tracked (whole.map (f := Reply.expression) fun _ _ _ _ => trivial)
    exact .inl ⟨sound, resumes, nofun⟩
  | expression =>
    obtain ⟨sound, resumes⟩ :=
      tracked (expression.map (f := Reply.expression) fun _ _ _ _ => trivial)
    exact .inl ⟨sound, resumes, nofun⟩
  | program =>
    have applied : (Demand.read .program s).2 = (program s).2 := by
      unfold Demand.read
      dsimp only
      rw [map_eq_pure_bind, bind_apply]
      rcases program s with ⟨_ | _, _⟩ <;> rfl
    rw [applied]
    obtain ⟨d, t, read, -, sound, resumes⟩ | ⟨found, t, read, -, -, -, sound, resumes, none⟩ :=
      program_outcome sound <;> rw [read]
    · exact .inl ⟨sound, resumes, fun _ _ _ => nofun⟩
    · have ends := sound.tokens
      exact .inr ⟨rfl, ⟨found, _, rfl⟩, ⟨none, ends.last, ends.start, ends.stop⟩,
        resumes.depth, resumes.enclosing, resumes.inConstant⟩

end Parse

namespace ParseState

open Parse

lemma asked_outcome (text : String) (demands : List Demand) :
    let s := ofText text true
    (s.asked demands).Outside ∧
      (¬ s.Finishes demands ∧ (s.asked demands).Sound text.toList ∨
        s.Finishes demands ∧ (s.asked demands).Spent text.toList) := by
  intro s
  induction demands using List.reverseRecOn with
  | nil =>
    refine ⟨⟨rfl, rfl, rfl⟩, .inl ⟨?_, sound_ofText text true⟩⟩
    rintro ⟨before, -, -, none, -⟩
    simp at none
  | append_singleton demands demand ih =>
    rw [asked_append_singleton, finishes_append_singleton]
    obtain ⟨outside, ⟨open', sound⟩ | ⟨finished, spent⟩⟩ := ih
    · obtain ⟨sound', resumes, fails⟩ | ⟨is, found, spent, resumes⟩ := read_outcome sound demand
      · refine ⟨outside.resumes resumes, .inl ⟨?_, sound'⟩⟩
        rintro (finished | ⟨is, read, t, found⟩)
        · exact open' finished
        · exact fails read t is found
      · exact ⟨outside.resumes resumes, .inr ⟨.inr ⟨is, found⟩, spent⟩⟩
    · obtain ⟨expected, refused⟩ := Spent.read spent demand
      rw [refused]
      exact ⟨outside, .inr ⟨.inl finished, spent⟩⟩

/-- **A reader survives its failures.** Behind any demands it is in the program's own scope, in no
routine and in no constant. Until one for a program succeeds, whatever name stands for a routine
finds one with this name and signature. Afterwards every demand fails at the end of the text. -/
theorem survives (text : String) (demands : List Demand) :
    let s := (ofText text true).asked demands
    (s.scopes.depth = 1 ∧ s.enclosing = [] ∧ s.inConstant = false) ∧
    (¬ (ofText text true).Finishes demands →
      ∀ scope ∈ s.scopes.levels, ∀ symbol ∈ scope, symbol.Entered s.routines) ∧
    ((ofText text true).Finishes demands →
      ∀ demand : Demand, ∃ fault : SyntaxFault,
        (demand.read s).1 = .error ⟨.syntactic fault, fault.found.span⟩ ∧
        fault.found.kind = .endOfText ∧ fault.found.span.start = text.toList.length ∧
        fault.found.span.stop = text.toList.length) := by
  intro s
  obtain ⟨⟨depth, enclosing, inConstant⟩, known⟩ := asked_outcome text demands
  refine ⟨⟨depth, enclosing, inConstant⟩, fun unfinished => ?_, fun finished demand => ?_⟩
  · obtain ⟨-, sound⟩ | ⟨finished, -⟩ := known
    · exact sound.entered
    · exact absurd finished unfinished
  · obtain ⟨unfinished, -⟩ | ⟨-, spent⟩ := known
    · exact absurd finished unfinished
    · obtain ⟨expected, refused⟩ := Spent.read spent demand
      exact ⟨⟨expected, s.tokens.last⟩, congrArg Prod.fst refused, spent.kind,
        spent.start, spent.stop⟩

/-- A text with a procedure, and with a fault behind it. -/
def broken : String := "program P; procedure q; begin end; begin x end."

def whole : String := "program P; begin end."

theorem survives_broken_and_whole :
    (¬ (ofText broken true).Finishes [.program] ∧
      ∃ scope ∈ ((ofText broken true).asked [.program]).scopes.levels, ∃ symbol ∈ scope,
        symbol.meaning = .procedure 0 ∧
        symbol.Entered ((ofText broken true).asked [.program]).routines) ∧
    (ofText whole true).Finishes [.program] ∧
      ∃ fault : SyntaxFault, (Demand.expression.read ((ofText whole true).asked [.program])).1 =
        .error ⟨.syntactic fault, fault.found.span⟩ ∧ fault.found.kind = .endOfText ∧
        fault.found.span.start = 21 ∧ fault.found.span.stop = 21 := by
  constructor
  · have unfinished : ¬ (ofText broken true).Finishes [.program] := by
      rintro ⟨before, read, t, first, found⟩
      have refused : (Parse.program (ofText broken true)).1.toOption.isNone := by decide +kernel
      obtain rfl : before = [] := by simpa using first.length_le
      change Parse.program (ofText broken true) = _ at found
      rw [found] at refused
      cases refused
    have named : ∃ scope ∈ ((ofText broken true).asked [.program]).scopes.levels, ∃ symbol ∈ scope,
        symbol.meaning = .procedure 0 := by decide +kernel
    obtain ⟨scope, among, symbol, listed, stands⟩ := named
    exact ⟨unfinished, scope, among, symbol, listed, stands,
      (survives broken [.program]).2.1 unfinished scope among symbol listed⟩
  · have answered : (Parse.program (ofText whole true)).1.toOption.isSome := by decide +kernel
    have finished : (ofText whole true).Finishes [.program] := by
      rcases read : Parse.program (ofText whole true) with ⟨d | found, t⟩ <;> rw [read] at answered
      · cases answered
      · exact ⟨[], found, t, List.prefix_rfl, read⟩
    exact ⟨finished, (survives whole [.program]).2.2 finished .expression⟩

end ParseState

end SmallPascal
