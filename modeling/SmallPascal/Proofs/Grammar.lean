import SmallPascal.Operator
import SmallPascal.Token

/-!
The grammar, apart from all that names mean. A tree keeps no more of a text than a second pass has
to know. What a tree is written as are tokens in front of another token, since some productions
depend on what comes behind them: `not` takes the longest expression, an `else` belongs to the
nearest `if`, and an empty statement has its place where the next token is.
-/

namespace SmallPascal

/-! ### Trees -/

inductive Phrase where
  | literal (token : Token)
  | name (token : Token)
  | call (name : Token) (args : List Phrase) (closing : Token)
  | index (array subscript : Phrase) (closing : Token)
  | unary (op : UnaryOp) (mark : Token) (operand : Phrase)
  | binary (op : BinaryOp) (left right : Phrase)

inductive TypePhrase where
  | simple (word : Token)
  | array (low high : Phrase) (item : TypePhrase)

/-- A statement as it is written. The last token of `writeln` or of a call is its closing
parenthesis, if it has one. -/
inductive Clause where
  | block (first : Token) (clauses : List Clause) (last : Token)
  | ifThen (keyword : Token) (test : Phrase) (yes : Clause)
  | ifThenElse (keyword : Token) (test : Phrase) (yes no : Clause)
  | whileDo (keyword : Token) (test : Phrase) (body : Clause)
  | forTo (keyword name : Token) (start limit : Phrase) (body : Clause)
  | writeln (keyword : Token) (args : List Phrase) (last : Token)
  | assign (name : Token) (subscripts : List Phrase) (value : Phrase)
  | call (name : Token) (args : List Phrase) (last : Token)
  | empty (behind : Token)

structure ConstantPhrase where
  names : List Token
  type : Option TypePhrase
  value : Phrase

structure VariablePhrase where
  names : List Token
  type : TypePhrase

/-- A section of constants or of variables, or a routine, as it is written. -/
inductive Section where
  | constants (groups : List ConstantPhrase)
  | vars (groups : List VariablePhrase)
  | routine (keyword name : Token) (params : List VariablePhrase) (returns : Option TypePhrase)
      (sections : List Section) (body : Clause)

structure Script where
  name : Token
  sections : List Section
  body : Clause

/-! ### Productions -/

namespace Grammar

abbrev Writing (τ : Type) := τ → List Token → Token → Prop

abbrev Anywhere {τ : Type} (item : τ → List Token → Prop) : Writing τ :=
    fun tree toks _ => item tree toks

inductive Listed {τ : Type} (item : Writing τ) (separator : Kind) : Writing (List τ)
  | one {a : τ} {toks : List Token} {next : Token} :
    item a toks next → Listed item separator [a] toks next
  | more {a : τ} {rest : List τ} {front behind : List Token} {mark next : Token} :
    item a front mark → mark.kind = separator → Listed item separator rest behind next →
    Listed item separator (a :: rest) (front ++ mark :: behind) next

inductive Series {τ : Type} (item : τ → List Token → Prop) : List τ → List Token → Prop
  | none : Series item [] []
  | more {a : τ} {rest : List τ} {front behind : List Token} :
    item a front → Series item rest behind → Series item (a :: rest) (front ++ behind)

/-- A chain of operands, grouped from the left. -/
inductive Chain (operators : List (Kind × BinaryOp)) (operand : Writing Phrase) : Writing Phrase
  | first {e : Phrase} {toks : List Token} {next : Token} :
    operand e toks next → Chain operators operand e toks next
  | more {op : BinaryOp} {left right : Phrase} {front behind : List Token} {operator next : Token} :
    Chain operators operand left front operator → (operator.kind, op) ∈ operators →
    operand right behind next →
    Chain operators operand (.binary op left right) (front ++ operator :: behind) next

inductive Enclosed (expression : Writing Phrase) : List Phrase → Token → List Token → Prop
  | none {opening closing : Token} : opening.kind = .leftParen → closing.kind = .rightParen →
    Enclosed expression [] closing [opening, closing]
  | some {args : List Phrase} {toks : List Token} {opening closing : Token} :
    opening.kind = .leftParen → Listed expression .comma args toks closing →
    closing.kind = .rightParen → Enclosed expression args closing (opening :: (toks ++ [closing]))

/-- A name, perhaps with arguments, and with any number of subscripts. -/
inductive Access (expression : Writing Phrase) : Phrase → List Token → Prop
  | name {name : Token} : name.kind = .identifier → Access expression (.name name) [name]
  | call {name closing : Token} {args : List Phrase} {toks : List Token} : name.kind = .identifier →
    Enclosed expression args closing toks →
    Access expression (.call name args closing) (name :: toks)
  | index {array subscript : Phrase} {front toks : List Token} {opening closing : Token} :
    Access expression array front → opening.kind = .leftBracket →
    expression subscript toks closing → closing.kind = .rightBracket →
    Access expression (.index array subscript closing) (front ++ opening :: (toks ++ [closing]))

end Grammar

def Kind.literals : List Kind :=
  [.integerLiteral, .realLiteral, .stringLiteral, .trueWord, .falseWord]

def Kind.sign? : Kind → Option UnaryOp
  | .plus => some .plus
  | .minus => some .negate
  | _ => none

namespace Grammar

/-- The operators of the lower level. -/
def sums : List (Kind × BinaryOp) :=
  [(.plus, .add), (.minus, .sub), (.equal, .eq), (.less, .lt), (.lessEqual, .le), (.greater, .gt),
    (.greaterEqual, .ge)]

/-- The operators of the higher level. -/
def products : List (Kind × BinaryOp) :=
  [(.star, .mul), (.slash, .div), (.divWord, .intDiv), (.modWord, .mod), (.andWord, .and),
    (.orWord, .or)]

end Grammar

def Token.IsOperator (token : Token) : Prop :=
  ∃ op, (token.kind, op) ∈ Grammar.sums ++ Grammar.products

namespace Grammar

/-- Terms. A sign takes the term behind it, `not` the longest expression behind it. -/
inductive Term : Writing Phrase
  | literal {token next : Token} : token.kind ∈ Kind.literals → Term (.literal token) [token] next
  | access {e : Phrase} {toks : List Token} {next : Token} :
    Access (Chain sums (Chain products Term)) e toks → Term e toks next
  | sign {op : UnaryOp} {operand : Phrase} {toks : List Token} {mark next : Token} :
    mark.kind.sign? = some op → Term operand toks next →
    Term (.unary op mark operand) (mark :: toks) next
  | not {operand : Phrase} {toks : List Token} {word next : Token} : word.kind = .notWord →
    Chain sums (Chain products Term) operand toks next → ¬ next.IsOperator →
    Term (.unary .not word operand) (word :: toks) next
  | group {e : Phrase} {toks : List Token} {opening closing next : Token} :
    opening.kind = .leftParen →
    Chain sums (Chain products Term) e toks closing →
    closing.kind = .rightParen → Term e (opening :: (toks ++ [closing])) next

abbrev Expression : Writing Phrase := Chain sums (Chain products Term)

/-- The arguments behind the token `head`, if there are any, and the last token of both. -/
def Args (head : Token) (args : List Phrase) (last : Token) (toks : List Token) : Prop :=
  args = [] ∧ last = head ∧ toks = [] ∨ Enclosed Expression args last toks

inductive Bracketed : Phrase → List Token → Prop
  | mk {subscript : Phrase} {toks : List Token} {opening closing : Token} :
    opening.kind = .leftBracket →
    Expression subscript toks closing → closing.kind = .rightBracket →
    Bracketed subscript (opening :: (toks ++ [closing]))

/-- Statements. An `if` without an alternative stands before no `else`. -/
inductive Statement : Writing Clause
  | block {clauses : List Clause} {toks : List Token} {first last next : Token} :
    first.kind = .beginWord → Listed Statement .semicolon clauses toks last → last.kind = .endWord →
    Statement (.block first clauses last) (first :: (toks ++ [last])) next
  | ifThen {test : Phrase} {yes : Clause} {front toks : List Token} {keyword word next : Token} :
    keyword.kind = .ifWord → Expression test front word → word.kind = .thenWord →
    Statement yes toks next → next.kind ≠ .elseWord →
    Statement (.ifThen keyword test yes) (keyword :: (front ++ word :: toks)) next
  | ifThenElse {test : Phrase} {yes no : Clause} {front toks behind : List Token}
      {keyword word alternative next : Token} :
    keyword.kind = .ifWord → Expression test front word → word.kind = .thenWord →
    Statement yes toks alternative → alternative.kind = .elseWord → Statement no behind next →
    Statement (.ifThenElse keyword test yes no)
      (keyword :: (front ++ word :: (toks ++ alternative :: behind))) next
  | whileDo {test : Phrase} {body : Clause} {front toks : List Token} {keyword word next : Token} :
    keyword.kind = .whileWord → Expression test front word → word.kind = .doWord →
    Statement body toks next →
    Statement (.whileDo keyword test body) (keyword :: (front ++ word :: toks)) next
  | forTo {start limit : Phrase} {body : Clause} {front middle toks : List Token}
      {keyword name sign bound word next : Token} :
    keyword.kind = .forWord → name.kind = .identifier → sign.kind = .assign →
    Expression start front bound → bound.kind = .toWord → Expression limit middle word →
    word.kind = .doWord → Statement body toks next →
    Statement (.forTo keyword name start limit body)
      (keyword :: name :: sign :: (front ++ bound :: (middle ++ word :: toks))) next
  | writeln {args : List Phrase} {toks : List Token} {keyword last next : Token} :
    keyword.kind = .writelnWord → Args keyword args last toks →
    Statement (.writeln keyword args last) (keyword :: toks) next
  | assign {subscripts : List Phrase} {value : Phrase} {front toks : List Token}
      {name sign next : Token} :
    name.kind = .identifier → Series Bracketed subscripts front →
    sign.kind = .assign → Expression value toks next →
    Statement (.assign name subscripts value) (name :: (front ++ sign :: toks)) next
  | call {args : List Phrase} {toks : List Token} {name last next : Token} :
    name.kind = .identifier → Args name args last toks →
    Statement (.call name args last) (name :: toks) next
  | empty {next : Token} : Statement (.empty next) [] next

inductive Typing : TypePhrase → List Token → Prop
  | simple {word : Token} : word.kind ∈ [.integerType, .realType, .booleanType] →
    Typing (.simple word) [word]
  | array {low high : Phrase} {item : TypePhrase} {front middle toks : List Token}
      {word opening range closing ofWord : Token} :
    word.kind = .arrayType → opening.kind = .leftBracket → Expression low front range →
    range.kind = .range → Expression high middle closing → closing.kind = .rightBracket →
    ofWord.kind = .ofWord → Typing item toks →
    Typing (.array low high item)
      (word :: opening :: (front ++ range :: (middle ++ closing :: ofWord :: toks)))

def Named (name : Token) (toks : List Token) : Prop := name.kind = .identifier ∧ toks = [name]

def Names (names : List Token) (toks : List Token) : Prop :=
  ∃ next, Listed (Anywhere Named) .comma names toks next

inductive Variables : VariablePhrase → List Token → Prop
  | mk {names : List Token} {type : TypePhrase} {front toks : List Token} {colon : Token} :
    Names names front → colon.kind = .colon → Typing type toks →
    Variables ⟨names, type⟩ (front ++ colon :: toks)

/-- Constants. One more comma may stand behind their names if a colon comes next. -/
inductive Constants : ConstantPhrase → List Token → Prop
  | plain {names : List Token} {value : Phrase} {front toks : List Token} {sign last : Token} :
    Names names front → sign.kind = .equal → Expression value toks last → last.kind = .semicolon →
    Constants ⟨names, none, value⟩ (front ++ sign :: (toks ++ [last]))
  | typed {names comma : List Token} {type : TypePhrase} {value : Phrase}
      {front middle toks : List Token} {colon sign last : Token} :
    Names names front → (comma = [] ∨ ∃ mark, mark.kind = .comma ∧ comma = [mark]) →
    colon.kind = .colon → Typing type middle → sign.kind = .equal →
    Expression value toks last → last.kind = .semicolon →
    Constants ⟨names, some type, value⟩
      (front ++ (comma ++ colon :: (middle ++ sign :: (toks ++ [last]))))

/-- Variables with the semicolon behind them. -/
def Declared (group : VariablePhrase) (toks : List Token) : Prop :=
  ∃ front last, Variables group front ∧ last.kind = .semicolon ∧ toks = front ++ [last]

inductive Parameters : List VariablePhrase → List Token → Prop
  | absent : Parameters [] []
  | none {opening closing : Token} : opening.kind = .leftParen → closing.kind = .rightParen →
    Parameters [] [opening, closing]
  | some {params : List VariablePhrase} {toks : List Token} {opening closing : Token} :
    opening.kind = .leftParen → Listed (Anywhere Variables) .semicolon params toks closing →
    closing.kind = .rightParen → Parameters params (opening :: (toks ++ [closing]))

inductive Returns : Kind → Option TypePhrase → List Token → Prop
  | function {type : TypePhrase} {toks : List Token} {colon : Token} : colon.kind = .colon →
    Typing type toks → Returns .functionWord (some type) (colon :: toks)
  | procedure : Returns .procedureWord none []

inductive Declaration : Section → List Token → Prop
  | constants {groups : List ConstantPhrase} {toks : List Token} {keyword : Token} :
    keyword.kind = .constWord → Series Constants groups toks → groups ≠ [] →
    Declaration (.constants groups) (keyword :: toks)
  | vars {groups : List VariablePhrase} {toks : List Token} {keyword : Token} :
    keyword.kind = .varWord → Series Declared groups toks → groups ≠ [] →
    Declaration (.vars groups) (keyword :: toks)
  | routine {params : List VariablePhrase} {returns : Option TypePhrase} {sections : List Section}
      {clauses : List Clause} {front middle inner toks : List Token}
      {keyword name semicolon first last closing : Token} :
    name.kind = .identifier → Parameters params front → Returns keyword.kind returns middle →
    semicolon.kind = .semicolon → Series Declaration sections inner →
    Statement (.block first clauses last) toks closing → closing.kind = .semicolon →
    Declaration (.routine keyword name params returns sections (.block first clauses last))
      (keyword :: name :: (front ++ (middle ++ semicolon :: (inner ++ (toks ++ [closing])))))

inductive Program : Script → List Token → Prop
  | mk {sections : List Section} {clauses : List Clause} {inner toks : List Token}
      {word name semicolon first last dot ending : Token} :
    word.kind = .programWord → name.kind = .identifier → semicolon.kind = .semicolon →
    Series Declaration sections inner → Statement (.block first clauses last) toks dot →
    dot.kind = .dot → ending.kind = .endOfText →
    Program ⟨name, sections, .block first clauses last⟩
      (word :: name :: semicolon :: (inner ++ (toks ++ [dot, ending])))

end Grammar

end SmallPascal
