import TriggerDialect.Token.Basic

/-!
# Spacing

Printing pieces puts one space between neighbours, except where the two belong together: around
dots and brackets, between a function and its arguments, around attribute and range marks, and
after a sign.
-/

namespace TriggerDialect.Piece

/-- Marks that attach to what stands before them. -/
def attachesLeft (p : Piece) : Bool :=
  p.kind == .punctuation && (p.text == "," || p.text == ")" || p.text == ";" || p.text == ".")

/-- Marks that attach to what follows them. -/
def attachesRight (p : Piece) : Bool :=
  p.kind == .punctuation && (p.text == "(" || p.text == ".")

/-- Operators with no space after them. -/
def bindsRight (p : Piece) : Bool :=
  p.kind == .operator && (p.text == "%" || p.text == ".." || p.text == "<<" || p.text == "@")

/-- Operators with no space before them. -/
def bindsLeft (p : Piece) : Bool :=
  p.kind == .operator && (p.text == "%" || p.text == ".." || p.text == ">>" || p.text == "@")

/-- An opening bracket after a name opens its arguments. -/
def opensArguments (previous next : Piece) : Bool :=
  next.kind == .punctuation && next.text == "(" &&
    (previous.kind == .identifier || previous.kind == .bindVariable)

/-- A plus or minus after nothing, an operator, a reserved word, an opening bracket or a comma. -/
def isSign (before : Option Piece) (p : Piece) : Bool :=
  p.kind == .operator && (p.text == "-" || p.text == "+") &&
    match before with
    | none => true
    | some b => b.kind == .operator || b.kind == .keyword || b.text == "(" || b.text == ","

/-- Whether a space stands between `previous` and `next`, where `before` precedes both. -/
def spaced (before : Option Piece) (previous next : Piece) : Bool :=
  !(next.attachesLeft || previous.attachesRight || previous.bindsRight || next.bindsLeft ||
    opensArguments previous next || isSign before previous)

/-- The characters of `next` pieces after `previous`. -/
def renderAfter (before : Option Piece) (previous : Piece) : List Piece → List Char
  | [] => []
  | next :: rest =>
    (if spaced before previous next then [' '] else []) ++ next.text.toList ++
      renderAfter (some previous) next rest

/-- The characters of pieces in canonical spacing. -/
def renderChars : List Piece → List Char
  | [] => []
  | first :: rest => first.text.toList ++ renderAfter none first rest

/-- Pieces as a text in canonical spacing. -/
def render (ps : List Piece) : String := String.ofList (renderChars ps)

end TriggerDialect.Piece

namespace TriggerDialect

/-- Tokens as a text in canonical spacing. -/
def render (ts : List Token) : String := Piece.render (pieces ts)

end TriggerDialect
