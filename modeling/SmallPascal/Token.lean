import SmallPascal.Span

/-! Tokens of a source text: their kinds, the fixed spelling of most of them, and how messages call
them. -/

namespace SmallPascal

/-- What a token is: a mark, a literal, an identifier, a reserved word, or the end of the text. -/
inductive Kind where
  | leftParen | rightParen | leftBracket | rightBracket
  | comma | colon | dot | semicolon
  | plus | minus | star | slash | equal | less | greater
  | assign | range | lessEqual | greaterEqual
  | identifier | integerLiteral | realLiteral | stringLiteral
  | programWord | beginWord | endWord | constWord | varWord | functionWord | procedureWord
  | ifWord | thenWord | elseWord | whileWord | doWord | forWord | toWord | writelnWord
  | divWord | modWord | andWord | orWord | notWord | trueWord | falseWord | ofWord
  | integerType | realType | booleanType | arrayType
  | endOfText
deriving DecidableEq

namespace Kind

/-- The spelling of a mark or a reserved word. -/
def spelling? : Kind → Option String
  | .leftParen => some "("
  | .rightParen => some ")"
  | .leftBracket => some "["
  | .rightBracket => some "]"
  | .comma => some ","
  | .colon => some ":"
  | .dot => some "."
  | .semicolon => some ";"
  | .plus => some "+"
  | .minus => some "-"
  | .star => some "*"
  | .slash => some "/"
  | .equal => some "="
  | .less => some "<"
  | .greater => some ">"
  | .assign => some ":="
  | .range => some ".."
  | .lessEqual => some "<="
  | .greaterEqual => some ">="
  | .programWord => some "program"
  | .beginWord => some "begin"
  | .endWord => some "end"
  | .constWord => some "const"
  | .varWord => some "var"
  | .functionWord => some "function"
  | .procedureWord => some "procedure"
  | .ifWord => some "if"
  | .thenWord => some "then"
  | .elseWord => some "else"
  | .whileWord => some "while"
  | .doWord => some "do"
  | .forWord => some "for"
  | .toWord => some "to"
  | .writelnWord => some "writeln"
  | .divWord => some "div"
  | .modWord => some "mod"
  | .andWord => some "and"
  | .orWord => some "or"
  | .notWord => some "not"
  | .trueWord => some "true"
  | .falseWord => some "false"
  | .ofWord => some "of"
  | .integerType => some "Integer"
  | .realType => some "Real"
  | .booleanType => some "Boolean"
  | .arrayType => some "Array"
  | .identifier | .integerLiteral | .realLiteral | .stringLiteral | .endOfText => none

/-- The reserved words. Capitals count: the names of types begin with one, all others have none. -/
def reserved : List Kind :=
  [.programWord, .beginWord, .endWord, .constWord, .varWord, .functionWord, .procedureWord,
    .ifWord, .thenWord, .elseWord, .whileWord, .doWord, .forWord, .toWord, .writelnWord,
    .divWord, .modWord, .andWord, .orWord, .notWord, .trueWord, .falseWord, .ofWord,
    .integerType, .realType, .booleanType, .arrayType]

/-- The marks, each one before those that it begins with. -/
def marks : List Kind :=
  [.assign, .range, .lessEqual, .greaterEqual, .leftParen, .rightParen, .leftBracket, .rightBracket,
    .comma, .colon, .dot, .semicolon, .plus, .minus, .star, .slash, .equal, .less, .greater]

/-- The characters of a mark or a reserved word. -/
def letters (kind : Kind) : List Char := (kind.spelling?.getD "").toList

/-- The longest mark that a text begins with. -/
def markOf? (cs : List Char) : Option Kind := marks.find? (·.letters.isPrefixOf cs)

/-- The kind of a token that is spelled like a name. -/
def ofName (name : String) : Kind :=
  (reserved.find? (·.spelling? == some name)).getD .identifier

def text (kind : Kind) : String :=
  match kind.spelling? with
  | some spelling => "'" ++ spelling ++ "'"
  | none =>
    match kind with
    | .identifier => "identifier"
    | .integerLiteral => "integer literal"
    | .realLiteral => "real literal"
    | .stringLiteral => "string literal"
    | _ => "end of input"

theorem append_of_markOf? {cs : List Char} {kind : Kind} (h : markOf? cs = some kind) :
    kind.letters ++ cs.drop kind.letters.length = cs := by
  have found : kind.letters.isPrefixOf cs = true := by simpa using List.find?_some h
  obtain ⟨rest, e⟩ := List.isPrefixOf_iff_prefix.1 found
  simp [← e]

theorem letters_ne_nil_of_markOf? {cs : List Char} {kind : Kind} (h : markOf? cs = some kind) :
    kind.letters ≠ [] := by
  have all : ∀ kind ∈ marks, kind.letters ≠ [] := by decide
  exact all kind (List.mem_of_find?_eq_some h)

end Kind

/-- A token, with its place. The lexeme of a string is its content without the quotes; that of the
end of the text is empty. -/
structure Token where
  kind : Kind
  lexeme : String
  span : Span
deriving DecidableEq

def Token.describe (token : Token) : String :=
  match token.kind with
  | .identifier => "identifier '" ++ token.lexeme ++ "'"
  | .integerLiteral | .realLiteral => "number " ++ token.lexeme
  | .stringLiteral => "string '" ++ token.lexeme ++ "'"
  | kind => kind.text

end SmallPascal
