import Mathlib.Data.List.Forall2
import SmallPascal.Proofs.Acceptance
import SmallPascal.Proofs.Accepted

/-!
Where the routines of a program come from. The words `function` and `procedure` stand only where a
routine begins, so that a program has one routine for each of them; and a routine has the head, the
locals and the body that stand behind its own word, however many routines come in between.
-/

namespace SmallPascal

open Grammar

def Kind.beginsRoutine (kind : Kind) : Bool := kind ∈ routines

/-- The token is the word that a routine begins with. -/
def Token.beginsRoutine (token : Token) : Bool := token.kind.beginsRoutine

/-! ### Tokens between routines -/

def Plain (toks : List Token) : Prop := ∀ token ∈ toks, token.beginsRoutine = false

lemma plain_nil : Plain [] := List.forall_mem_nil _

lemma plain_append {front behind : List Token} :
    Plain (front ++ behind) ↔ Plain front ∧ Plain behind := List.forall_mem_append

namespace Kind

variable {kind : Kind}

lemma beginsRoutine_of_literal (h : kind ∈ literals) : kind.beginsRoutine = false :=
  (by decide : ∀ kind ∈ literals, kind.beginsRoutine = false) kind h

lemma beginsRoutine_of_type (h : kind ∈ [integerType, realType, booleanType]) :
    kind.beginsRoutine = false :=
  (by decide : ∀ kind ∈ [integerType, realType, booleanType], kind.beginsRoutine = false) kind h

lemma beginsRoutine_of_sign {op : UnaryOp} (h : kind.sign? = some op) :
    kind.beginsRoutine = false := by
  refine decide_eq_false fun among => ?_
  rw [(by decide : ∀ kind ∈ routines, kind.sign? = none) kind among] at h
  cases h

lemma beginsRoutine_of_operator {op : BinaryOp} (h : (kind, op) ∈ sums ∨ (kind, op) ∈ products) :
    kind.beginsRoutine = false := by
  have others : ∀ operator ∈ sums ++ products, operator.1.beginsRoutine = false := by decide
  exact others _ (List.mem_append.2 h)

end Kind

section

variable {kind : Kind} {token : Token} {toks : List Token}

lemma plain_cons (is : token.kind = kind) (other : kind.beginsRoutine = false) (rest : Plain toks) :
    Plain (token :: toks) :=
  List.forall_mem_cons.2 ⟨(congrArg Kind.beginsRoutine is).trans other, rest⟩

lemma plain_with {front : List Token} {mark : Token} (before : Plain front) (is : mark.kind = kind)
    (other : kind.beginsRoutine = false) (behind : Plain toks) : Plain (front ++ mark :: toks) :=
  plain_append.2 ⟨before, plain_cons is other behind⟩

lemma plain_between {opening closing : Token} {kind' : Kind} (opens : opening.kind = kind)
    (other : kind.beginsRoutine = false) (inside : Plain toks) (closes : closing.kind = kind')
    (other' : kind'.beginsRoutine = false) : Plain (opening :: (toks ++ [closing])) :=
  plain_cons opens other (plain_with inside closes other' plain_nil)

lemma plain_chain {operators : List (Kind × BinaryOp)} {operand : Writing Phrase}
    (marks : ∀ kind op, (kind, op) ∈ operators → kind.beginsRoutine = false)
    (h : ∀ {e toks next}, operand e toks next → Plain toks) {e : Phrase} {next : Token}
    (written : Chain operators operand e toks next) : Plain toks := by
  induction written with
  | first operand => exact h operand
  | more _ is right ih => exact plain_with ih rfl (marks _ _ is) (h right)

lemma plain_listed {τ : Type} {item : Writing τ} {separator : Kind}
    (other : separator.beginsRoutine = false) (h : ∀ {a toks next}, item a toks next → Plain toks)
    {trees : List τ} {next : Token} (written : Listed item separator trees toks next) :
    Plain toks := by
  induction written with
  | one first => exact h first
  | more first is _ ih => exact plain_with (h first) is other ih

lemma plain_series {τ : Type} {item : τ → List Token → Prop}
    (h : ∀ {a toks}, item a toks → Plain toks)
    {trees : List τ} (written : Series item trees toks) : Plain toks := by
  induction written with
  | none => exact plain_nil
  | more first _ ih => exact plain_append.2 ⟨h first, ih⟩

/-- The induction is on the term together with all that it is built from: operands, subscripts and
arguments. -/
lemma plain_term {e : Phrase} {next : Token} (written : Term e toks next) : Plain toks :=
  @Term.rec (fun _ toks _ _ => Plain toks) (fun _ toks _ => Plain toks)
    (fun _ toks _ _ => Plain toks)
    (fun _ _ toks _ => Plain toks) (fun _ toks _ _ => Plain toks) (fun _ toks _ _ => Plain toks)
    -- terms
    (fun is => plain_cons rfl (Kind.beginsRoutine_of_literal is) plain_nil)
    (fun _ access => access)
    (fun is _ operand => plain_cons rfl (Kind.beginsRoutine_of_sign is) operand)
    (fun is _ _ operand => plain_cons is rfl operand)
    (fun opens _ closes inside => plain_between opens rfl inside closes rfl)
    -- names, calls and elements
    (fun is => plain_cons is rfl plain_nil)
    (fun is _ args => plain_cons is rfl args)
    (fun _ opens _ closes array subscript =>
      plain_append.2 ⟨array, plain_between opens rfl subscript closes rfl⟩)
    -- sums
    (fun _ operand => operand)
    (fun _ is _ left right => plain_with left rfl (Kind.beginsRoutine_of_operator (.inl is)) right)
    -- arguments in parentheses
    (fun opens closes => plain_cons opens rfl (plain_cons closes rfl plain_nil))
    (fun opens _ closes args => plain_between opens rfl args closes rfl)
    -- products
    (fun _ operand => operand)
    (fun _ is _ left right => plain_with left rfl (Kind.beginsRoutine_of_operator (.inr is)) right)
    -- arguments
    (fun _ arg => arg)
    (fun _ is _ first rest => plain_with first is rfl rest)
    e toks next written

lemma plain_expression {e : Phrase} {next : Token} (written : Expression e toks next) :
    Plain toks :=
  plain_chain (fun _ _ is => Kind.beginsRoutine_of_operator (.inl is))
    (plain_chain (fun _ _ is => Kind.beginsRoutine_of_operator (.inr is)) plain_term) written

lemma plain_args {head last : Token} {args : List Phrase} (written : Args head args last toks) :
    Plain toks := by
  rcases written with ⟨-, -, rfl⟩ | written
  · exact plain_nil
  · cases written with
    | none opens closes => exact plain_cons opens rfl (plain_cons closes rfl plain_nil)
    | some opens args closes =>
      exact plain_between opens rfl (plain_listed rfl plain_expression args) closes rfl

lemma plain_bracketed {subscript : Phrase} (written : Bracketed subscript toks) : Plain toks := by
  obtain ⟨opens, inside, closes⟩ := written
  exact plain_between opens rfl (plain_expression inside) closes rfl

lemma plain_statement {c : Clause} {next : Token} (written : Statement c toks next) : Plain toks :=
  @Statement.rec (fun _ toks _ _ => Plain toks) (fun _ toks _ _ => Plain toks)
    (fun opens _ closes inside => plain_between opens rfl inside closes rfl)
    (fun is test isThen _ _ yes =>
      plain_cons is rfl (plain_with (plain_expression test) isThen rfl yes))
    (fun is test isThen _ isElse _ yes no =>
      plain_cons is rfl
        (plain_with (plain_expression test) isThen rfl (plain_with yes isElse rfl no)))
    (fun is test isDo _ body =>
      plain_cons is rfl (plain_with (plain_expression test) isDo rfl body))
    (fun is isName isAssign start isTo limit isDo _ body =>
      plain_cons is rfl <| plain_cons isName rfl <|
        plain_cons isAssign rfl <| plain_with (plain_expression start) isTo rfl <|
          plain_with (plain_expression limit) isDo rfl body)
    (fun is args => plain_cons is rfl (plain_args args))
    (fun is subscripts isAssign value => plain_cons is rfl
      (plain_with (plain_series plain_bracketed subscripts) isAssign rfl (plain_expression value)))
    (fun is args => plain_cons is rfl (plain_args args))
    plain_nil
    (fun _ statement => statement)
    (fun _ is _ first rest => plain_with first is rfl rest)
    c toks next written

lemma plain_typing {type : TypePhrase} (written : Typing type toks) : Plain toks := by
  induction written with
  | simple among => exact plain_cons rfl (Kind.beginsRoutine_of_type among) plain_nil
  | array isArray opens low isRange high closes isOf _ ih =>
    refine plain_cons isArray rfl (plain_cons opens rfl ?_)
    refine plain_with (plain_expression low) isRange rfl ?_
    exact plain_with (plain_expression high) closes rfl (plain_cons isOf rfl ih)

lemma plain_names {names : List Token} (written : Names names toks) : Plain toks := by
  obtain ⟨next, listed⟩ := written
  refine plain_listed rfl ?_ listed
  rintro name _ _ ⟨is, rfl⟩
  exact plain_cons is rfl plain_nil

lemma plain_variables {group : VariablePhrase} (written : Variables group toks) : Plain toks := by
  obtain ⟨names, isColon, type⟩ := written
  exact plain_with (plain_names names) isColon rfl (plain_typing type)

lemma plain_constants {group : ConstantPhrase} (written : Constants group toks) : Plain toks := by
  have ended {value : Phrase} {toks : List Token} {last : Token}
    (value : Expression value toks last)
      (is : last.kind = .semicolon) : Plain (toks ++ [last]) :=
    plain_with (plain_expression value) is rfl plain_nil
  cases written with
  | plain names isEqual value isLast =>
    exact plain_with (plain_names names) isEqual rfl (ended value isLast)
  | typed names comma isColon type isEqual value isLast =>
    have mark : Plain _ := comma.elim (fun none => none ▸ plain_nil)
      fun ⟨_, is, one⟩ => one ▸ plain_cons is rfl plain_nil
    exact plain_append.2 ⟨plain_names names, plain_append.2 ⟨mark, plain_cons isColon rfl
      (plain_with (plain_typing type) isEqual rfl (ended value isLast))⟩⟩

lemma plain_declared {group : VariablePhrase} (written : Declared group toks) : Plain toks := by
  obtain ⟨front, last, group, is, rfl⟩ := written
  exact plain_with (plain_variables group) is rfl plain_nil

lemma plain_parameters {params : List VariablePhrase} (written : Parameters params toks) :
    Plain toks := by
  cases written with
  | absent => exact plain_nil
  | none opens closes => exact plain_cons opens rfl (plain_cons closes rfl plain_nil)
  | some opens groups closes =>
    exact plain_between opens rfl (plain_listed rfl plain_variables groups) closes rfl

lemma Grammar.Returns.mem_routines {returns : Option TypePhrase}
    (written : Returns kind returns toks) :
    kind ∈ Kind.routines := by
  cases written <;> decide

lemma Grammar.Returns.isSome_iff {returns : Option TypePhrase}
    (written : Returns kind returns toks) :
    returns.isSome ↔ kind = .functionWord := by
  cases written with
  | function => exact iff_of_true rfl rfl
  | procedure => exact iff_of_false Bool.false_ne_true (by decide)

lemma plain_returns {returns : Option TypePhrase} (written : Returns kind returns toks) :
    Plain toks := by
  cases written with
  | function isColon type => exact plain_cons isColon rfl (plain_typing type)
  | procedure => exact plain_nil

end

/-! ### Routines in the text -/

def namesOf (groups : List VariablePhrase) : List String :=
  groups.flatMap fun group => group.names.map (·.lexeme)

/-- The names of variables that a section declares. -/
def Section.varNames : Section → List String
  | .vars groups => namesOf groups
  | .constants _ | .routine .. => []

/-- A routine as it is written: its word and its name, the parameters and the type of the result,
the declarations inside it, and the block that closes it. -/
structure RoutineText where
  keyword : Token
  name : Token
  params : List VariablePhrase
  returns : Option TypePhrase
  semicolon : Token
  sections : List Section
  first : Token
  clauses : List Clause
  last : Token
  closing : Token
  front : List Token
  middle : List Token
  inner : List Token
  block : List Token
  isName : name.kind = .identifier
  takes : Parameters params front
  answers : Returns keyword.kind returns middle
  isSemicolon : semicolon.kind = .semicolon
  declares : Series Declaration sections inner
  does : Statement (.block first clauses last) block closing
  isClosing : closing.kind = .semicolon

namespace RoutineText

def header (text : RoutineText) : List Token :=
  text.keyword :: text.name :: (text.front ++ (text.middle ++ [text.semicolon]))

def tokens (text : RoutineText) : List Token :=
  text.header ++ (text.inner ++ (text.block ++ [text.closing]))

def body (text : RoutineText) : Clause := .block text.first text.clauses text.last

/-- The routine with the given number is what is written: it has the names that are declared in its
own header and in its own sections, and the block that closes it. -/
structure Fills (text : RoutineText) (id : RoutineId) (routine : Routine) : Prop where
  span : routine.span = text.keyword.span.through text.name.span
  name : routine.name = text.name.lexeme
  returns : routine.returns.isSome ↔ text.keyword.kind = .functionWord
  params : routine.params.map (·.1) = namesOf text.params
  locals : routine.locals.map (·.1) = text.sections.flatMap Section.varNames
  extent : routine.body.span = text.first.span.through text.last.span
  body : ∃ setting, setting.within = some id ∧ text.body.elaborate setting = some routine.body

end RoutineText

structure Site where
  start : Nat
  text : RoutineText

namespace Site

/-- Where the header ends, and what is declared inside begins. -/
def head (site : Site) : Nat := site.start + site.text.header.length

def body (site : Site) : Nat := site.head + site.text.inner.length

def finish (site : Site) : Nat := site.start + site.text.tokens.length

/-- The second routine is declared between the header and the body of the first one, or behind
it. -/
def Apart (first second : Site) : Prop :=
  first.head ≤ second.start ∧ second.finish ≤ first.body ∨ first.finish ≤ second.start

end Site

/-- The routines, numbered from `count` on, are those of the tokens, which stand behind `offset`
others: one for each word that begins a routine, and in the order of these words. -/
structure Slots (tokens : List Token) (offset count : Nat) (sites : List Site)
    (routines : List Routine) : Prop where
  starts : sites.map (·.start) = tokens.findIdxs Token.beginsRoutine offset
  stands : ∀ site ∈ sites, ∃ front behind, tokens = front ++ (site.text.tokens ++ behind) ∧
    site.start = offset + front.length
  apart : sites.Pairwise Site.Apart
  fills : List.Forall₂ (fun site entry => site.text.Fills entry.2 entry.1) sites
    (routines.zipIdx count)

namespace Slots

variable {tokens tokens' : List Token} {offset count : Nat} {sites sites' : List Site}
  {routines routines' : List Routine}

lemma inside (h : Slots tokens offset count sites routines) {site : Site} (among : site ∈ sites) :
    offset ≤ site.start ∧ site.finish ≤ offset + tokens.length := by
  obtain ⟨front, behind, rfl, start⟩ := h.stands site among
  simp only [Site.finish, List.length_append]
  omega

lemma length (h : Slots tokens offset count sites routines) :
    routines.length = tokens.countP Token.beginsRoutine := by
  calc routines.length = sites.length := by simpa using h.fills.length_eq.symm
    _ = (sites.map (·.start)).length := by rw [List.length_map]
    _ = tokens.countP Token.beginsRoutine := by rw [h.starts, List.length_findIdxs]

lemma none (offset count : Nat) (plain : Plain tokens) : Slots tokens offset count [] [] where
  starts := (List.findIdxs_eq_nil_iff.2 plain).symm
  stands := fun _ among => absurd among List.not_mem_nil
  apart := .nil
  fills := .nil

lemma append (h : Slots tokens offset count sites routines)
    (h' : Slots tokens' (offset + tokens.length) (count + routines.length) sites' routines') :
    Slots (tokens ++ tokens') offset count (sites ++ sites') (routines ++ routines') where
  starts := by rw [List.map_append, h.starts, h'.starts, List.findIdxs_append]
  stands := by
    intro site among
    rcases List.mem_append.1 among with among | among
    · obtain ⟨front, behind, rfl, start⟩ := h.stands site among
      exact ⟨front, behind ++ tokens', by simp, start⟩
    · obtain ⟨front, behind, rfl, start⟩ := h'.stands site among
      exact ⟨tokens ++ front, behind, by simp, by rw [start, List.length_append, Nat.add_assoc]⟩
  apart := by
    refine List.pairwise_append.2 ⟨h.apart, h'.apart, fun first among second among' => .inr ?_⟩
    exact Nat.le_trans (h.inside among).2 (h'.inside among').1
  fills := by
    rw [List.zipIdx_append]
    exact List.rel_append h.fills h'.fills

lemma routine {text : RoutineText} {new : Routine} (filled : text.Fills count new)
    (h : Slots text.inner (offset + text.header.length) (count + 1) sites routines) :
    Slots text.tokens offset count (⟨offset, text⟩ :: sites) (new :: routines) := by
  have begins : text.keyword.beginsRoutine = true := decide_eq_true text.answers.mem_routines
  have header : text.header.findIdxs Token.beginsRoutine offset = [offset] := by
    have plain : Plain (text.name :: (text.front ++ (text.middle ++ [text.semicolon]))) :=
      plain_cons text.isName rfl <| plain_append.2 ⟨plain_parameters text.takes,
        plain_with (plain_returns text.answers) text.isSemicolon rfl plain_nil⟩
    unfold RoutineText.header
    rw [List.findIdxs_cons, if_pos begins, List.findIdxs_eq_nil_iff.2 plain]
  have behind : Plain (text.block ++ [text.closing]) :=
    plain_with (plain_statement text.does) text.isClosing rfl plain_nil
  have rest := h.append (none _ _ behind)
  rw [List.append_nil, List.append_nil] at rest
  constructor
  · have whole : text.tokens.findIdxs Token.beginsRoutine offset = offset ::
        (text.inner ++ (text.block ++ [text.closing])).findIdxs Token.beginsRoutine
          (offset + text.header.length) := by
      unfold RoutineText.tokens
      rw [List.findIdxs_append, header, List.singleton_append]
    rw [List.map_cons, rest.starts, whole]
  · rintro site (_ | ⟨_, among⟩)
    · exact ⟨[], [], by simp, rfl⟩
    · obtain ⟨front, after, same, start⟩ := rest.stands site among
      refine ⟨text.header ++ front, after, ?_, ?_⟩
      · rw [RoutineText.tokens, same, List.append_assoc]
      · rw [start, List.length_append, Nat.add_assoc]
  · exact List.pairwise_cons.2 ⟨fun site among => .inl (h.inside among), rest.apart⟩
  · rw [List.zipIdx_cons]
    exact .cons filled h.fills

end Slots

/-! ### What is declared where -/

namespace Setting

variable {setting setting' : Setting}

lemma within_declare {symbol : Symbol} (h : setting.declare? symbol = some setting') :
    setting'.within = setting.within := by
  unfold declare? at h
  split at h
  · cases h
    rfl
  · cases h

lemma within_declareAll {symbols : List Symbol} (h : setting.declareAll? symbols = some setting') :
    setting'.within = setting.within := by
  induction symbols generalizing setting with
  | nil =>
    cases h
    rfl
  | cons symbol rest ih =>
    obtain ⟨middle, first, others⟩ := Option.bind_eq_some_iff.1 h
    exact (ih others).trans (within_declare first)

end Setting

lemma Declarations.vars_join (part : Declarations) (parts : List Declarations) :
    (join (part :: parts)).vars = part.vars ++ (join parts).vars := rfl

section

variable {setting setting' : Setting} {part : Declarations}

lemma VariablePhrase.names_of_places {group : VariablePhrase} {places : List (Token × Ty)}
    (h : group.places? setting = some places) :
    places.map (·.1.lexeme) = group.names.map (·.lexeme) := by
  obtain ⟨type, -, same⟩ := Option.bind_eq_some_iff.1 h
  cases same
  exact List.map_map

lemma names_of_parameters {params : List VariablePhrase} {places : List (Token × Ty)}
    (h : parameters? setting params = some places) : places.map (·.1.lexeme) = namesOf params := by
  obtain ⟨found, each, rfl⟩ := Option.map_eq_some_iff.1 h
  clear h
  induction params generalizing found with
  | nil =>
    cases each
    rfl
  | cons group rest ih =>
    rw [List.mapM_cons] at each
    obtain ⟨first, one, each⟩ := Option.bind_eq_some_iff.1 each
    obtain ⟨others, all, same⟩ := Option.bind_eq_some_iff.1 each
    cases same
    rw [List.flatten_cons, List.map_append, VariablePhrase.names_of_places one, ih others all]
    rfl

lemma ConstantPhrase.kept {group : ConstantPhrase}
    (h : group.elaborate setting = some (setting', part)) :
    setting'.within = setting.within ∧ part.vars.map (·.1) = [] := by
  obtain ⟨type?, -, h⟩ := Option.bind_eq_some_iff.1 h
  obtain ⟨read, -, h⟩ := Option.bind_eq_some_iff.1 h
  obtain ⟨e, -, h⟩ := Option.bind_eq_some_iff.1 h
  obtain ⟨value, -, h⟩ := Option.bind_eq_some_iff.1 h
  obtain ⟨after, all, same⟩ := Option.bind_eq_some_iff.1 h
  cases same
  exact ⟨Setting.within_declareAll all, rfl⟩

lemma VariablePhrase.kept {group : VariablePhrase}
    (h : group.elaborate setting = some (setting', part)) :
    setting'.within = setting.within ∧ part.vars.map (·.1) = group.names.map (·.lexeme) := by
  obtain ⟨places, found, h⟩ := Option.bind_eq_some_iff.1 h
  obtain ⟨after, all, same⟩ := Option.bind_eq_some_iff.1 h
  cases same
  refine ⟨Setting.within_declareAll all, ?_⟩
  rw [← names_of_places found]
  exact List.map_map

/-- Groups leave the routine as it is that they stand in, and their variables have the names that
are told by `names`. -/
lemma kept_groups {τ : Type} {elaborate : Setting → τ → Option (Setting × Declarations)}
    {names : τ → List String}
    (h : ∀ setting group setting' part, elaborate setting group = some (setting', part) →
      setting'.within = setting.within ∧ part.vars.map (·.1) = names group)
    {groups : List τ} {parts : List Declarations}
    (means : elaborateGroups elaborate setting groups = some (setting', parts)) :
    setting'.within = setting.within ∧
      (Declarations.join parts).vars.map (·.1) = groups.flatMap names := by
  induction groups generalizing setting parts with
  | nil =>
    cases means
    exact ⟨rfl, rfl⟩
  | cons group rest ih =>
    rw [elaborateGroups] at means
    obtain ⟨⟨middle, part⟩, first, means⟩ := Option.bind_eq_some_iff.1 means
    obtain ⟨⟨last, others⟩, later, same⟩ := Option.bind_eq_some_iff.1 means
    cases same
    obtain ⟨within, vars⟩ := h _ _ _ _ first
    obtain ⟨within', vars'⟩ := ih later
    refine ⟨within'.trans within, ?_⟩
    rw [Declarations.vars_join, List.map_append, vars, vars', List.flatMap_cons]

end

namespace Section

variable {setting setting' : Setting} {count : Nat} {part : Declarations}
  {parts : List Declarations} {new : List Routine}

lemma kept {s : Section} (h : s.elaborate setting count = some (setting', part, new)) :
    setting'.within = setting.within ∧ part.vars.map (·.1) = s.varNames := by
  cases s with
  | constants groups =>
    obtain ⟨⟨after, parts⟩, means, same⟩ := Option.bind_eq_some_iff.1 h
    cases same
    obtain ⟨within, vars⟩ := kept_groups (fun _ _ _ _ => ConstantPhrase.kept) means
    exact ⟨within, vars.trans (List.flatMap_eq_nil_iff.2 fun _ _ => rfl)⟩
  | vars groups =>
    obtain ⟨⟨after, parts⟩, means, same⟩ := Option.bind_eq_some_iff.1 h
    cases same
    refine kept_groups ?_ means
    exact fun _ _ _ _ => VariablePhrase.kept
  | routine keyword name params returns sections body =>
    obtain ⟨head, places, outer, opened, inner, parts, others, stmt, -, named, -, -, -, rfl, rfl,
      -⟩ := Parse.elaborate_routine.1 h
    have within := Setting.within_declare named
    exact ⟨within, rfl⟩

lemma keptAll {sections : List Section}
    (h : elaborateEach elaborate setting count sections = some (setting', parts, new)) :
    setting'.within = setting.within ∧
      (Declarations.join parts).vars.map (·.1) = sections.flatMap varNames := by
  induction sections generalizing setting count parts new with
  | nil =>
    cases h
    exact ⟨rfl, rfl⟩
  | cons s rest ih =>
    rw [elaborateEach] at h
    obtain ⟨⟨middle, part, routines⟩, first, means⟩ := Option.bind_eq_some_iff.1 h
    obtain ⟨⟨last, others, more⟩, later, same⟩ := Option.bind_eq_some_iff.1 means
    cases same
    obtain ⟨within, vars⟩ := kept first
    obtain ⟨within', vars'⟩ := ih later
    refine ⟨within'.trans within, ?_⟩
    rw [Declarations.vars_join, List.map_append, vars, vars', List.flatMap_cons]

end Section

/-! ### Routines in their slots -/

lemma Section.head_of_text {setting : Setting} (text : RoutineText) {head : Routine}
    {places : List (Token × Ty)}
    (h : head? setting text.keyword text.name text.params text.returns = some (head, places)) :
    head.span = text.keyword.span.through text.name.span ∧ head.name = text.name.lexeme ∧
      (head.returns.isSome ↔ text.keyword.kind = .functionWord) ∧
      head.params.map (·.1) = namesOf text.params := by
  obtain ⟨found, params, h⟩ := Option.bind_eq_some_iff.1 h
  obtain ⟨returns, result, same⟩ := Option.bind_eq_some_iff.1 h
  cases same
  refine ⟨rfl, rfl, ?_, ?_⟩
  · rw [← text.answers.isSome_iff]
    cases e : text.returns with
    | none =>
      rw [e] at result
      cases result
      exact Iff.rfl
    | some type =>
      rw [e] at result
      obtain ⟨ty, -, rfl⟩ := Option.map_eq_some_iff.1 result
      exact Iff.rfl
  · rw [← names_of_parameters params]
    exact List.map_map

mutual

lemma Section.slots {s : Section} {setting setting' : Setting} {count : Nat} {part : Declarations}
    {new : List Routine} {toks : List Token} (offset : Nat) (written : Declaration s toks)
    (h : s.elaborate setting count = some (setting', part, new)) :
    ∃ sites, Slots toks offset count sites new := by
  match s with
  | .constants groups =>
    obtain ⟨⟨after, parts⟩, -, same⟩ := Option.bind_eq_some_iff.1 h
    cases same
    cases written with
    | constants is series =>
      exact ⟨[], .none _ _ (plain_cons is rfl (plain_series plain_constants series))⟩
  | .vars groups =>
    obtain ⟨⟨after, parts⟩, -, same⟩ := Option.bind_eq_some_iff.1 h
    cases same
    cases written with
    | vars is series =>
      exact ⟨[], .none _ _ (plain_cons is rfl (plain_series plain_declared series))⟩
  | .routine keyword name params returns sections body =>
    obtain ⟨head, places, outer, opened, inner, parts, others, stmt, headed, -, all,
      nested, means, -,
      -, rfl⟩ := Parse.elaborate_routine.1 h
    cases written with
    | @routine _ _ _ clauses front middle between block _ _ semicolon first last
      closing isName takes
        answers isSemicolon declares does isClosing =>
      let text : RoutineText :=
        { keyword, name, params, returns, semicolon, sections, first, clauses, last, closing, front,
          middle, inner := between, block, isName, takes, answers, isSemicolon, declares, does,
          isClosing }
      obtain ⟨sites, inside⟩ := Section.slotsAll (offset + text.header.length) declares nested
      obtain ⟨within, locals⟩ := Section.keptAll nested
      obtain ⟨span, named, function, params⟩ := Section.head_of_text text headed
      have extent : stmt.span = first.span.through last.span := by
        rw [Clause.elaborate_block] at means
        obtain ⟨stmts, -, same⟩ := Option.bind_eq_some_iff.1 means
        cases same
        rfl
      have opens : opened.within = some count := Setting.within_declareAll all
      refine ⟨⟨offset, text⟩ :: sites, ?_⟩
      have shape : text.tokens = keyword :: name ::
          (front ++ (middle ++ semicolon :: (between ++ (block ++ [closing])))) := by
        simp [RoutineText.tokens, RoutineText.header, text]
      rw [← shape]
      exact .routine
        ⟨span, named, function, params, locals, extent, inner, within.trans opens, means⟩
        inside

lemma Section.slotsAll {sections : List Section} {setting setting' : Setting} {count : Nat}
    {parts : List Declarations} {new : List Routine} {toks : List Token} (offset : Nat)
    (written : Series Declaration sections toks)
    (h : elaborateEach Section.elaborate setting count sections = some (setting', parts, new)) :
    ∃ sites, Slots toks offset count sites new := by
  match sections with
  | [] =>
    cases h
    cases written
    exact ⟨[], .none _ _ plain_nil⟩
  | s :: rest =>
    rw [elaborateEach] at h
    obtain ⟨⟨middle, part, routines⟩, first, means⟩ := Option.bind_eq_some_iff.1 h
    obtain ⟨⟨last, others, more⟩, later, same⟩ := Option.bind_eq_some_iff.1 means
    cases same
    cases written with
    | more declaration series =>
      obtain ⟨sites, slots⟩ := Section.slots offset declaration first
      obtain ⟨sites', slots'⟩ := Section.slotsAll _ series later
      exact ⟨sites ++ sites', slots.append slots'⟩

end

namespace Program

/-- **Every routine has the slot of its own word.** An accepted program has one routine for each
word `function` or `procedure` of its text, in the order of these words; each one has the name, the
names of parameters and locals, and the body that are written behind its word; and of two routines
the later one is declared between the header and the body of the other, or behind it. -/
theorem routines_in_slots {text : String} {program : Program} (h : ofText text = .ok program) :
    ∃ tokens sites, (Cursor.ofText text).scan.1 = .ok tokens ∧
      program.routines.length = tokens.countP Token.beginsRoutine ∧
      Slots tokens 0 0 sites program.routines := by
  obtain ⟨tokens, script, scanned, written, means⟩ := accepted_iff.1 h
  obtain ⟨isWord, isName, isSemicolon, series, block, isDot, isEnd⟩ := written
  next sections clauses inner toks word name semicolon first last dot ending =>
  obtain ⟨⟨setting, parts, routines⟩, nested, means⟩ := Option.bind_eq_some_iff.1 means
  obtain ⟨body, -, same⟩ := Option.bind_eq_some_iff.1 means
  cases same
  rw [Section.elaborateAll_eq] at nested
  obtain ⟨sites, slots⟩ := Section.slotsAll 3 series nested
  have before : Plain [word, name, semicolon] := plain_cons isWord rfl <|
    plain_cons isName rfl <| plain_cons isSemicolon rfl plain_nil
  have behind : Plain (toks ++ [dot, ending]) := plain_with (plain_statement block) isDot rfl <|
    plain_cons isEnd rfl plain_nil
  have whole := (Slots.none 0 0 before).append (slots.append (.none _ _ behind))
  rw [List.append_nil, List.append_nil] at whole
  exact ⟨_, sites, scanned, whole.length, whole⟩

/-- A function inside a procedure whose own variable comes behind it, and one more procedure. -/
def nest : String :=
  "program Nest; procedure a; function b(n: Integer): Integer; begin b := n end;
  var x: Real; begin x := b(1) end; procedure c; begin a end; begin c end."

theorem routines_in_slots_nest : ∃ program, ofText nest = .ok program ∧
    program.routines.map (·.name) = ["a", "b", "c"] ∧
    ∃ tokens sites, (Cursor.ofText nest).scan.1 = .ok tokens ∧
      program.routines.length = tokens.countP Token.beginsRoutine ∧
      Slots tokens 0 0 sites program.routines := by
  have checked : (ofText nest).toOption.any (fun program =>
      decide (program.routines.map (·.name) = ["a", "b", "c"])) := by
    decide +kernel
  obtain ⟨program, accepted, named⟩ := exists_of_any checked
  exact ⟨program, accepted, of_decide_eq_true named, routines_in_slots accepted⟩

end Program

end SmallPascal
