import SmallPascal.Interpreter
import SmallPascal.Proofs.ProgramRecognition
import SmallPascal.Proofs.Scanning
import SmallPascal.Proofs.TokenOrder

/-!
The programs that are accepted. Reading in one pass, where what a name means decides how to go on,
comes to the same as reading by the grammar first and understanding the tree afterwards.
-/

namespace SmallPascal

open Steps Grammar

namespace Parse

variable {s t : ParseState} {read : Program}

lemma expect_last {kind : Kind} (empty : s.tokens.items = []) (is : s.tokens.last.kind = kind) :
    expect kind s = (.ok s.tokens.last, s) := by
  obtain ⟨⟨items, last⟩, _⟩ := s
  cases empty
  exact (bind_of_ok rfl).trans (by rw [if_pos is]; rfl)

/-- A program that is read takes up all tokens, and is the meaning of their tree. -/
lemma sound_program (ready : s.Ready)
    (within : ∀ token, .ok token ∈ s.tokens.items → token.kind ≠ .endOfText)
    (start : s.setting = .start) (none : s.routines = []) (h : program s = (.ok read, t)) :
    ∃ inner script, s.tokens.items = inner.map .ok ∧
      Grammar.Program script (inner ++ [s.tokens.last]) ∧ script.elaborate = some read := by
  obtain ⟨word, u, isWord, rfl, ready, naming⟩ := expect_inv ready (by decide) h
  obtain ⟨name, v, isName, rfl, ready, ending⟩ := expect_inv ready (by decide) naming
  obtain ⟨semicolon, w, isSemicolon, rfl, ready, declaring⟩ := expect_inv ready (by decide) ending
  obtain ⟨whole, x, declared, blockOn⟩ := bind_eq_ok.1 declaring
  obtain ⟨parts, rfl, sections, inner, y, new, rfl, series, means, gains⟩ :=
    introduces_declarationsOf sound_routine ready declared
  rw [ParseState.ready_put, ← gains.ready] at ready
  obtain ⟨stmt, z, blocked, dotOn⟩ := bind_eq_ok.1 blockOn
  obtain ⟨first, clauses, last, toks, rfl, written, means'⟩ := sound_block ready blocked
  rw [ParseState.ready_put] at ready
  obtain ⟨dot, e, isDot, rfl, ready, lastOn⟩ := expect_inv ready (by decide) dotOn
  obtain ⟨closing, f, closed, done⟩ := bind_eq_ok.1 lastOn
  obtain ⟨isEnd, closed⟩ := expect_eq_ok closed
  obtain ⟨on, place⟩ := next_eq_ok closed
  obtain ⟨_, _, got, moving⟩ := bind_eq_ok.1 done
  obtain ⟨rfl, rfl⟩ := get_eq_ok.1 got
  obtain ⟨_, _, -, answered⟩ := bind_eq_ok.1 moving
  obtain ⟨rfl, -⟩ := pure_eq_ok.1 answered
  rw [ParseState.put_put] at gains
  obtain ⟨y, rfl, gained⟩ := gains.put_left
  -- the end of the text is no item
  have place : closing = y.tokens.last ∧ y.tokens.items = [] := by
    rw [gained.tokens] at place
    refine place.resolve_right fun items => within closing ?_ isEnd
    simp [ParseState.put, Tokens.put, items]
  obtain ⟨rfl, empty⟩ := place
  refine ⟨word :: name :: semicolon :: (inner ++ (toks ++ [dot])),
    ⟨name, sections, .block first clauses last⟩, ?_, ?_, ?_⟩
  · simp [ParseState.put, Tokens.put, empty]
  · have written := Grammar.Program.mk isWord isName isSemicolon series (written dot) isDot isEnd
    simpa [ParseState.put, Tokens.put] using written
  · have fresh : y.routines = [] := none
    have blank : y.setting = .start := start
    have routines : f.routines = new := by
      rw [on.routines, gained.routines, fresh, List.nil_append]
    have nested : elaborateEach Section.elaborate y.setting y.routines.length sections =
      some (e.setting, parts, new) := means
    have body : (Clause.block first clauses last).elaborate e.setting = some stmt := means'
    rw [blank, fresh] at nested
    rw [routines, Script.elaborate, Section.elaborateAll_eq]
    exact Option.bind_eq_some_iff.2 ⟨_, nested, Option.bind_eq_some_iff.2 ⟨_, body, rfl⟩⟩

lemma put_behind {tokens : List Token} (items : s.tokens.items = tokens.map .ok) :
    ({ s with tokens := ⟨[], s.tokens.last⟩ } : ParseState).put tokens = s := by
  obtain ⟨⟨_, _⟩, _⟩ := s
  cases items
  simp [ParseState.put, Tokens.put]

lemma complete_program {inner : List Token} {script : Script} (folds : s.folding = true)
    (start : s.setting = .start) (none : s.routines = []) (items : s.tokens.items = inner.map .ok)
    (written : Grammar.Program script (inner ++ [s.tokens.last]))
    (means : script.elaborate = some read) : ∃ t, program s = (.ok read, t) := by
  generalize whole : inner ++ [s.tokens.last] = tokens at written
  obtain ⟨isWord, isName, isSemicolon, series, block, isDot, isEnd⟩ := written
  next sections clauses between toks word name semicolon first last dot ending =>
  have ends : inner ++ [s.tokens.last] =
      (word :: name :: semicolon :: (between ++ (toks ++ [dot]))) ++ [ending] := by
    simpa using whole
  obtain ⟨rfl, same⟩ := List.append_inj' ends rfl
  rw [← (List.cons.inj same).1] at isEnd
  let e : ParseState := { s with tokens := ⟨[], s.tokens.last⟩ }
  have blank : e.setting = .start := start
  have fresh : e.routines = [] := none
  rw [Script.elaborate, Section.elaborateAll_eq, ← blank] at means
  obtain ⟨⟨setting, parts, new⟩, nested, means⟩ := Option.bind_eq_some_iff.1 means
  obtain ⟨stmt, body, same⟩ := Option.bind_eq_some_iff.1 means
  cases same
  have begins : ∃ rest, toks = first :: rest ∧ first.kind = .beginWord := by
    cases block with
    | block isFirst => exact ⟨_, rfl, isFirst⟩
  obtain ⟨rest, shape, isFirst⟩ := begins
  obtain ⟨t, gains, rfl, declared⟩ := enters_declarationsOf (complete_routine between.length)
    (s := e.put (toks ++ [dot])) folds (by rw [shape]; rfl) isFirst series
    (by rw [show (e.put (toks ++ [dot])).routines = [] from fresh]; exact nested) (Nat.le_refl _)
  obtain ⟨u, rfl, gained⟩ := gains.put_right
  have blocked := complete_block (s := u.put [dot]) (gained.folding.trans folds) block body
  rw [ParseState.put_put] at declared blocked
  refine ⟨{ u with routines := [] }, ?_⟩
  rw [← put_behind items]
  unfold program
  refine (bind_of_ok (expect_put isWord)).trans ?_
  refine (bind_of_ok (expect_put isName)).trans ?_
  refine (bind_of_ok (expect_put isSemicolon)).trans ?_
  refine (bind_of_ok declared).trans ?_
  refine (bind_of_ok blocked).trans ?_
  refine (bind_of_ok (expect_put isDot)).trans ?_
  refine (bind_of_ok (expect_last (congrArg Tokens.items gained.tokens)
    (by rw [gained.tokens]; exact isEnd))).trans ?_
  have routines : u.routines = new := by rw [gained.routines, fresh, List.nil_append]
  rw [bind_of_ok get_self, ← routines]
  rfl

end Parse

namespace Program

/-- **What is accepted, and as what.** A text is read as a program just if its tokens can be scanned
and are those of a tree of the grammar that has a meaning; and then as that meaning. -/
theorem accepted_iff {text : String} {program : Program} : ofText text = .ok program ↔
    ∃ tokens script, (Cursor.ofText text).scan.1 = .ok tokens ∧ Grammar.Program script tokens ∧
      script.elaborate = some program := by
  have last : (ParseState.ofText text true).Ready := ⟨rfl, (Tokens.orderly_ofText text).last⟩
  unfold ofText
  constructor
  · intro h
    obtain ⟨inner, script, items, written, means⟩ := Parse.sound_program last
      (fun _ => Tokens.kind_ne_of_mem_ofCursor) rfl rfl (Prod.ext h rfl)
    exact ⟨_, script, Tokens.scan_eq_ok_iff.2 ⟨inner, items, rfl⟩, written, means⟩
  · rintro ⟨tokens, script, scanned, written, means⟩
    obtain ⟨inner, items, rfl⟩ := Tokens.scan_eq_ok_iff.1 scanned
    obtain ⟨t, read⟩ := Parse.complete_program (s := .ofText text true) rfl rfl rfl items written
      means
    exact congrArg Prod.fst read

end Program

end SmallPascal
