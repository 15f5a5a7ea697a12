/-!
# Kinds of tokens

Every token has one of twenty-one kinds. Trivia are the kinds that only
separate: blanks, line terminators and comments. `KindSet` groups kinds in
the bits of one word.
-/

namespace Lossless

/-- What a token is. -/
inductive TokenKind where
  | leftParen
  | rightParen
  | leftBrace
  | rightBrace
  | comma
  | semicolon
  | functionWord
  | returnWord
  | trueWord
  | falseWord
  | nullWord
  /-- Any other word of the language, which nothing may be named after. -/
  | reservedWord
  | identifier
  | number
  | string
  | blank
  | lineTerminator
  | lineComment
  | blockComment
  | unknown
  | endOfFile
  deriving DecidableEq, Repr, Inhabited

namespace TokenKind

/-- All kinds in their order. -/
def all : List TokenKind :=
  [leftParen, rightParen, leftBrace, rightBrace, comma, semicolon, functionWord,
    returnWord, trueWord, falseWord, nullWord, reservedWord, identifier,
    number, string, blank, lineTerminator, lineComment, blockComment,
    unknown, endOfFile]

/-- The place of a kind in the order. -/
def index (k : TokenKind) : Nat := k.ctorIdx

theorem all_getElem_index (k : TokenKind) : all[k.index]? = some k := by
  cases k <;> rfl

/-- The name of a kind in listings. -/
def name : TokenKind → String
  | leftParen => "LEFT_PAREN"
  | rightParen => "RIGHT_PAREN"
  | leftBrace => "LEFT_BRACE"
  | rightBrace => "RIGHT_BRACE"
  | comma => "COMMA"
  | semicolon => "SEMICOLON"
  | functionWord => "FUNCTION_KW"
  | returnWord => "RETURN_KW"
  | trueWord => "TRUE_KW"
  | falseWord => "FALSE_KW"
  | nullWord => "NULL_KW"
  | reservedWord => "RESERVED_WORD"
  | identifier => "IDENT"
  | number => "NUMBER"
  | string => "STRING"
  | blank => "WHITESPACE"
  | lineTerminator => "LINE_TERMINATOR"
  | lineComment => "LINE_COMMENT"
  | blockComment => "BLOCK_COMMENT"
  | unknown => "UNKNOWN"
  | endOfFile => "EOF"

/-- The kind with a name. -/
def ofName? (s : String) : Option TokenKind := all.find? fun k => k.name == s

/-- How messages call a kind. -/
def describe : TokenKind → String
  | leftParen => "`(`"
  | rightParen => "`)`"
  | leftBrace => "`\x7b`"
  | rightBrace => "`\x7d`"
  | comma => "`,`"
  | semicolon => "`;`"
  | functionWord => "`function`"
  | returnWord => "`return`"
  | trueWord => "`true`"
  | falseWord => "`false`"
  | nullWord => "`null`"
  | reservedWord => "reserved word"
  | identifier => "identifier"
  | number => "number"
  | string => "string"
  | blank => "whitespace"
  | lineTerminator => "line terminator"
  | lineComment => "line comment"
  | blockComment => "block comment"
  | unknown => "unknown token"
  | endOfFile => "end of file"

/-- Blanks, line terminators and comments. -/
def isTrivia : TokenKind → Bool
  | blank | lineTerminator | lineComment | blockComment => true
  | _ => false

/-- The kinds of literals. -/
def isLiteral : TokenKind → Bool
  | number | string | trueWord | falseWord | nullWord => true
  | _ => false

/-- The kinds that an expression can begin with. -/
def startsExpression (k : TokenKind) : Bool :=
  k.isLiteral || k == identifier || k == leftParen

/-- The words of the language, none of which is an identifier. -/
def isWord : TokenKind → Bool
  | functionWord | returnWord | trueWord | falseWord | nullWord
  | reservedWord => true
  | _ => false

/-- The kind of a word: five words have a kind of their own, the others are
reserved or identifiers. -/
def ofWord (w : String) : TokenKind :=
  match w with
  | "function" => functionWord
  | "return" => returnWord
  | "true" => trueWord
  | "false" => falseWord
  | "null" => nullWord
  | w =>
    if ["break", "case", "catch", "class", "const", "continue", "debugger",
      "default", "delete", "do", "else", "enum", "export", "extends",
      "finally", "for", "if", "import", "in", "instanceof", "new", "super",
      "switch", "this", "throw", "try", "typeof", "var", "void", "while",
      "with"].contains w then reservedWord
    else identifier

end TokenKind

/-- A set of kinds: the bit at a kind's place is set when the kind belongs. -/
structure KindSet where
  bits : UInt64
  deriving DecidableEq, Repr

namespace KindSet

def empty : KindSet := ⟨0⟩

/-- The set of one kind. -/
def singleton (k : TokenKind) : KindSet := ⟨1 <<< k.index.toUInt64⟩

def union (s t : KindSet) : KindSet := ⟨s.bits ||| t.bits⟩

def ofList (kinds : List TokenKind) : KindSet :=
  kinds.foldl (fun s k => s.union (singleton k)) empty

def contains (s : KindSet) (k : TokenKind) : Bool :=
  s.bits &&& (singleton k).bits != 0

/-- The members in the order of the kinds. -/
def toList (s : KindSet) : List TokenKind := TokenKind.all.filter s.contains

end KindSet

end Lossless
