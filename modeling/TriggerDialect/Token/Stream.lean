import TriggerDialect.Text.Position
import TriggerDialect.Token.Lexeme

/-!
# Token streams

The tokens of a text are its lexemes less blanks and comments, each with its byte offset. Reading
is strict (`Token.ofSource`) or recovering (`Token.recover`): the latter keeps an unterminated rest
as one last token. Blanking out comments keeps every byte offset and every newline.
-/

namespace TriggerDialect

/-- A construct that is still open at the end of the text, and where it starts. -/
structure LexFault where
  cause : Unterminated
  offset : Nat
  position : Text.Position
deriving Repr, DecidableEq

namespace LexFault

/-- The wording of the fault. -/
def message (fault : LexFault) : String :=
  let what := match fault.cause with
    | .string => "string literal"
    | .comment => "block comment"
  s!"Unterminated {what} starting at line {fault.position.line}, column {fault.position.column}"

end LexFault

namespace Lexeme

/-- The lexeme's characters as a text. -/
def text (lexeme : Lexeme) : String := String.ofList lexeme.chars

/-- The tokens among lexemes of which the first stands at byte `offset`. -/
def tokensFrom (offset : Nat) : List Lexeme → List Token
  | [] => []
  | lexeme :: rest =>
    let later := tokensFrom (offset + Text.byteLength lexeme.chars) rest
    match lexeme.shape with
    | .token kind => ⟨⟨kind, lexeme.text⟩, offset⟩ :: later
    | .blank => later
    | .comment => later

/-- The number of bytes that lexemes cover. -/
def byteLength (lexemes : List Lexeme) : Nat :=
  total (fun lexeme => Text.byteLength lexeme.chars) lexemes

/-- A comment as blanks of the same byte length, with its newlines kept; all else as it is. -/
def withoutComment (lexeme : Lexeme) : List Char :=
  match lexeme.shape with
  | .comment =>
    lexeme.chars.flatMap fun c => if c = '\n' then ['\n'] else List.replicate c.utf8Size ' '
  | _ => lexeme.chars

end Lexeme

namespace Lexing

/-- The tokens that were completed. -/
def tokens (lexing : Lexing) : List Token := Lexeme.tokensFrom 0 lexing.lexemes

/-- The fault of a text that ends inside a construct. -/
def fault (source : String) (lexing : Lexing) : Option LexFault :=
  lexing.unfinished.map fun unfinished =>
    let offset := Lexeme.byteLength lexing.lexemes
    ⟨unfinished.1, offset, Text.position source offset⟩

/-- The unterminated rest as one token. -/
def trailing (lexing : Lexing) : List Token :=
  match lexing.unfinished with
  | none => []
  | some (_, rest) =>
    [⟨⟨.trailing, String.ofList rest⟩, Lexeme.byteLength lexing.lexemes⟩]

end Lexing

namespace Token

/-- The tokens of a text, or the construct that it leaves open. -/
def ofSource (source : String) : Except LexFault (List Token) :=
  let lexing := lex source.toList
  match lexing.fault source with
  | some fault => .error fault
  | none => .ok lexing.tokens

/-- The tokens of a text, an unterminated rest being one last token. -/
def recover (source : String) : List Token × Option LexFault :=
  let lexing := lex source.toList
  (lexing.tokens ++ lexing.trailing, lexing.fault source)

end Token

/-- The text with its comments blanked out: every other character keeps its byte offset. -/
def blankComments (source : String) : Except LexFault String :=
  let lexing := lex source.toList
  match lexing.fault source with
  | some fault => .error fault
  | none => .ok (String.ofList (lexing.lexemes.flatMap Lexeme.withoutComment))

end TriggerDialect
