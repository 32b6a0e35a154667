import TriggerDialect.Text.Ascii

/-!
# Tokens

A piece is a classified run of text; a token is a piece with the byte offset at which it stands.
Everything that reads tokens asks only the questions defined here, none of which looks at the
offset.
-/

namespace TriggerDialect

/-- The classes of tokens. -/
inductive Kind where
  /-- A plain or double-quoted name. -/
  | identifier
  /-- One of the reserved words of `keywords`. -/
  | keyword
  /-- A string literal in any of its forms. -/
  | stringLiteral
  /-- A number. -/
  | numericLiteral
  /-- A name after a colon, with its dotted parts. -/
  | bindVariable
  /-- An operator of one or two characters. -/
  | operator
  /-- One of `( ) , ; .`. -/
  | punctuation
  /-- The unterminated rest of a text. -/
  | trailing
deriving Repr, DecidableEq

/-- The name of a class. -/
def Kind.name : Kind → String
  | .identifier => "Identifier"
  | .keyword => "Keyword"
  | .stringLiteral => "StringLiteral"
  | .numericLiteral => "NumericLiteral"
  | .bindVariable => "BindVariable"
  | .operator => "Operator"
  | .punctuation => "Punctuation"
  | .trailing => "Trailing"

/-- All classes. -/
def Kind.all : List Kind :=
  [.identifier, .keyword, .stringLiteral, .numericLiteral, .bindVariable, .operator, .punctuation,
    .trailing]

/-- A classified run of text. -/
structure Piece where
  kind : Kind
  text : String
deriving Repr, DecidableEq

/-- A piece and the byte offset of its first character. -/
structure Token extends Piece where
  offset : Nat
deriving Repr, DecidableEq

/-- The reserved words, in upper case. -/
def keywords : List String :=
  ["ALL", "AND", "AS", "ASC", "BEGIN", "BETWEEN", "BY", "CASE", "CLOSE", "COMMIT", "CONNECT",
    "CONSTANT", "CONTINUE", "CREATE", "CURSOR", "DECLARE", "DEFAULT", "DELETE", "DESC",
    "DISTINCT", "ELSE", "ELSIF", "END", "ESCAPE", "EXCEPTION", "EXECUTE", "EXISTS", "EXIT",
    "FETCH", "FOR", "FROM", "GROUP", "HAVING", "IF", "IN", "INSERT", "INTERSECT", "INTO", "IS",
    "JOIN", "LIKE", "LOOP", "MERGE", "MINUS", "NOT", "NULL", "ON", "OPEN", "OR", "ORDER",
    "OTHERS", "PRAGMA", "PRIOR", "RAISE", "RETURN", "RETURNING", "REVERSE", "ROLLBACK",
    "SELECT", "SET", "START", "THEN", "TRIGGER", "UNION", "UPDATE", "USING", "VALUES", "WHEN",
    "WHERE", "WHILE", "WITH"]

/-- Whether a word is reserved, in any letter case. -/
def isReserved (word : String) : Bool := keywords.contains (Text.upper word)

namespace Piece

/-- Whether the piece is the reserved word `word`, in any letter case. -/
def isKeyword (p : Piece) (word : String) : Bool :=
  p.kind == .keyword && Text.sameWord p.text word

/-- Whether the piece is `word`, reserved or not, in any letter case. -/
def isWord (p : Piece) (word : String) : Bool :=
  (p.kind == .keyword || p.kind == .identifier) && Text.sameWord p.text word

/-- Whether the piece is the punctuation mark `mark`. -/
def isPunct (p : Piece) (mark : Char) : Bool :=
  p.kind == .punctuation && p.text == mark.toString

/-- Whether the piece is the operator `op`. -/
def isOp (p : Piece) (op : String) : Bool := p.kind == .operator && p.text == op

/-- Whether the piece is a name. -/
def isIdentifier (p : Piece) : Bool := p.kind == .identifier

/-- Whether the piece can follow a dot in a qualified name. -/
def isSegment (p : Piece) : Bool := p.kind == .identifier || p.kind == .keyword

/-- The text in upper case, which stands for a word in any letter case. -/
def upper (p : Piece) : String := Text.upper p.text

variable {p : Piece}

/-- What is a given reserved word is a reserved word. -/
theorem kind_of_isKeyword {word : String} (h : p.isKeyword word) : p.kind = .keyword := by
  simp only [isKeyword, Bool.and_eq_true, beq_iff_eq] at h
  exact h.1

/-- A given mark is a mark. -/
theorem kind_of_isPunct {mark : Char} (h : p.isPunct mark) : p.kind = .punctuation := by
  simp only [isPunct, Bool.and_eq_true, beq_iff_eq] at h
  exact h.1

/-- A given operator is an operator. -/
theorem kind_of_isOp {op : String} (h : p.isOp op) : p.kind = .operator := by
  simp only [isOp, Bool.and_eq_true, beq_iff_eq] at h
  exact h.1

end Piece

/-- The pieces of a token list: all of it but the offsets. -/
def pieces (ts : List Token) : List Piece := ts.map Token.toPiece

end TriggerDialect
