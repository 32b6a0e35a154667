import TriggerDialect.Grammar.Header
import TriggerDialect.Proofs.Phrase.Basic

/-!
# Written headers

A heading is the header of a trigger as it is written, with all its tokens in place:

    CREATE [OR REPLACE] [EDITIONABLE | NONEDITIONABLE] TRIGGER name
      (BEFORE | AFTER | INSTEAD OF) event (OR event)* ON name clause*

`Heading.tokens` is its text and `Heading.header` what it means. Of the clauses that say the same
the last one counts.
-/

namespace TriggerDialect

open Grammar Phrase List

/-- Tokens in which every bracket has its partner. -/
inductive Balanced : List Token → Prop
  | nil : Balanced []
  | plain {t : Token} {ts : List Token} (hopening : t.isPunct '(' = false)
      (hclosing : t.isPunct ')' = false) (h : Balanced ts) : Balanced (t :: ts)
  | group {opening closing : Token} {inner ts : List Token} (hopening : opening.isPunct '(' = true)
      (hinner : Balanced inner) (hclosing : closing.isPunct ')') (h : Balanced ts) :
      Balanced (opening :: (inner ++ closing :: ts))

namespace Heading

/-- A given word, reserved or not, in any letter case. -/
abbrev Spelling (word : String) := TokenOf (·.isWord word)

/-- One of two words. -/
abbrev Choice (word other : String) := TokenOf fun p => p.isWord word || p.isWord other

/-- One or more items with separators between them. -/
structure Separated (separator : Piece → Bool) (ε : Type) where
  first : ε
  others : List (TokenOf separator × ε)

namespace Separated

variable {separator : Piece → Bool} {ε : Type}

/-- All items. -/
def items (list : Separated separator ε) : List ε := list.first :: list.others.map Prod.snd

/-- The tokens of the items with the separators. -/
def tokens (item : ε → List Token) (list : Separated separator ε) : List Token :=
  item list.first ++ list.others.flatMap fun other => other.1.token :: item other.2

theorem tokens_cons (item : ε → List Token) (first second : ε) (word : TokenOf separator)
    (others : List (TokenOf separator × ε)) (rest : List Token) :
    tokens item ⟨first, (word, second) :: others⟩ ++ rest =
      item first ++ word.token :: (tokens item ⟨second, others⟩ ++ rest) := by
  simp [tokens]

end Separated

/-- A qualified name. Its parts after the first may be reserved words. -/
structure QualifiedName where
  first : Identifier
  segments : List Phrase.Segment

namespace QualifiedName

/-- The tokens of a name. -/
def tokens (name : QualifiedName) : List Token :=
  name.first.token :: name.segments.flatMap Phrase.Segment.tokens

/-- The text of a name. -/
def text (name : QualifiedName) : String :=
  Text.join "." (name.first.token.text :: name.segments.map fun segment => segment.name.token.text)

end QualifiedName

/-! ### Timing and events -/

/-- When a trigger fires. -/
inductive Moment where
  | before (word : Spelling "BEFORE")
  | after (word : Spelling "AFTER")
  | insteadOf (word : Spelling "INSTEAD") (ofWord : Spelling "OF")

namespace Moment

/-- The tokens of the timing. -/
def tokens : Moment → List Token
  | .before word => [word.token]
  | .after word => [word.token]
  | .insteadOf word ofWord => [word.token, ofWord.token]

/-- The timing that is meant. -/
def timing : Moment → Timing
  | .before _ => .before
  | .after _ => .after
  | .insteadOf _ _ => .insteadOf

end Moment

/-- `OF name, ...` -/
structure Columns where
  word : Spelling "OF"
  names : Separated (·.isPunct ',') Identifier

namespace Columns

/-- The tokens of the columns, if there are any. -/
def tokens : Option Columns → List Token
  | none => []
  | some columns => columns.word.token :: columns.names.tokens fun name => [name.token]

/-- The names of the columns. -/
def texts : Option Columns → List String
  | none => []
  | some columns => columns.names.items.map fun name => name.token.text

end Columns

/-- What a trigger fires on. -/
inductive Occasion where
  | insert (word : Spelling "INSERT")
  | delete (word : Spelling "DELETE")
  | update (word : Spelling "UPDATE") (columns : Option Columns)

namespace Occasion

/-- The tokens of an event. -/
def tokens : Occasion → List Token
  | .insert word => [word.token]
  | .delete word => [word.token]
  | .update word columns => word.token :: Columns.tokens columns

/-- The event that is meant. -/
def event : Occasion → Event
  | .insert _ => ⟨.insert, []⟩
  | .delete _ => ⟨.delete, []⟩
  | .update _ columns => ⟨.update, Columns.texts columns⟩

end Occasion

/-! ### Clauses -/

/-- The word for a row. -/
inductive RowWord where
  | new (word : Spelling "NEW")
  | old (word : Spelling "OLD")
  | parent (word : Spelling "PARENT")

namespace RowWord

/-- The token of the word. -/
def token : RowWord → Token
  | .new word => word.token
  | .old word => word.token
  | .parent word => word.token

/-- The row that is meant. -/
def row : RowWord → RowName
  | .new _ => .new
  | .old _ => .old
  | .parent _ => .parent

end RowWord

/-- A name for a row: `NEW [AS] name`. The word `AS` right after the row is never the name. -/
structure Alias where
  row : RowWord
  asWord : Option (Spelling "AS")
  name : Identifier
  told : asWord = none → name.token.isWord "AS" = false

namespace Alias

/-- The tokens of the name with the row before it. -/
def tokens (a : Alias) : List Token :=
  a.row.token :: ((a.asWord.map TokenOf.token).toList ++ [a.name.token])

/-- The last of the names for a row. -/
def last (row : RowName) (aliases : List Alias) : Option String :=
  ((aliases.filter fun a => a.row.row = row).getLast?).map fun a => a.name.token.text

/-- A later name counts more. -/
theorem last_cons (row : RowName) (a : Alias) (list : List Alias) :
    last row (a :: list) =
      (last row list).or (if a.row.row = row then some a.name.token.text else none) := by
  unfold last
  by_cases hrow : a.row.row = row
  · rw [filter_cons_of_pos (by simpa using hrow), getLast?_cons, if_pos hrow]
    cases (list.filter fun a => a.row.row = row).getLast? <;> rfl
  · rw [filter_cons_of_neg (by simpa using hrow), if_neg hrow, Option.or_none]

theorem last_append (row : RowName) (list others : List Alias) :
    last row (list ++ others) = (last row others).or (last row list) := by
  rw [last, filter_append, getLast?_append, Option.map_or]
  rfl

end Alias

/-- Balanced tokens in brackets. -/
structure Group where
  opening : Mark '('
  inner : List Token
  balanced : Balanced inner
  closing : Mark ')'

/-- The tokens with the brackets. -/
def Group.tokens (g : Group) : List Token := g.opening.token :: (g.inner ++ [g.closing.token])

/-- A clause between the table and the block. -/
inductive Clause where
  | referencing (word : Spelling "REFERENCING") (first : Alias) (others : List Alias)
  | eachRow (word : Spelling "FOR") (each : Spelling "EACH") (row : Spelling "ROW")
  | order (word : Choice "FOLLOWS" "PRECEDES") (names : Separated (·.isPunct ',') QualifiedName)
  | enabling (word : Choice "ENABLE" "DISABLE")
  | condition (word : Spelling "WHEN") (group : Group)

namespace Clause

/-- The first token of a clause. -/
def lead : Clause → Token
  | .referencing word _ _ => word.token
  | .eachRow word _ _ => word.token
  | .order word _ => word.token
  | .enabling word => word.token
  | .condition word _ => word.token

/-- The tokens after the first one. -/
def rest : Clause → List Token
  | .referencing _ first others => (first :: others).flatMap Alias.tokens
  | .eachRow _ each row => [each.token, row.token]
  | .order _ names => names.tokens QualifiedName.tokens
  | .enabling _ => []
  | .condition _ group => group.tokens

/-- The tokens of a clause. -/
def tokens (c : Clause) : List Token := c.lead :: c.rest

/-- The names for rows that a clause gives. -/
def aliases : Clause → List Alias
  | .referencing _ first others => first :: others
  | _ => []

/-- Whether the trigger fires for each row. -/
def isEachRow : Clause → Bool
  | .eachRow _ _ _ => true
  | _ => false

/-- The condition that a clause gives. -/
def inner? : Clause → Option (List Token)
  | .condition _ group => some group.inner
  | _ => none

/-- The header with what the clauses say; it counts more than what was said before. -/
def amend (clauses : List Clause) (header : Header) : Header :=
  { header with
    forEachRow := header.forEachRow || clauses.any isEachRow
    newAlias := (Alias.last .new (clauses.flatMap aliases)).or header.newAlias
    oldAlias := (Alias.last .old (clauses.flatMap aliases)).or header.oldAlias
    condition := ((clauses.filterMap inner?).getLast?.map Fragment.ofTokens).or header.condition }

section

variable (header : Header)

theorem amend_nil : amend [] header = header := by
  simp [amend, Alias.last]

/-- The clauses amend the header one after the other. -/
theorem amend_cons (c : Clause) (clauses : List Clause) :
    amend (c :: clauses) header = amend clauses (amend [c] header) := by
  have hcondition : ((c :: clauses).filterMap inner?).getLast? =
      (clauses.filterMap inner?).getLast?.or ([c].filterMap inner?).getLast? := by
    rw [← singleton_append, filterMap_append, getLast?_append]
  simp [amend, Alias.last_append, Option.map_or, Option.or_assoc, Bool.or_assoc]

/-- What a single clause says. -/
theorem amend_single (c : Clause) : amend [c] header = match c with
    | .referencing _ first others => { header with
        newAlias := (Alias.last .new (first :: others)).or header.newAlias
        oldAlias := (Alias.last .old (first :: others)).or header.oldAlias }
    | .eachRow _ _ _ => { header with forEachRow := true }
    | .condition _ group => { header with condition := some (Fragment.ofTokens group.inner) }
    | .order _ _ | .enabling _ => header := by
  cases c <;> simp [amend, aliases, isEachRow, inner?, Alias.last]

end

end Clause

end Heading

/-! ### Headings -/

open Heading

/-- A whole header. -/
structure Heading where
  word : Spelling "CREATE"
  replacing : Option (Spelling "OR" × Spelling "REPLACE")
  edition : Option (Choice "EDITIONABLE" "NONEDITIONABLE")
  trigger : Spelling "TRIGGER"
  name : QualifiedName
  moment : Moment
  occasions : Separated (·.isWord "OR") Occasion
  onWord : Spelling "ON"
  table : QualifiedName
  clauses : List Clause

namespace Heading

/-- The tokens of `OR REPLACE`, if it is there. -/
def replacingTokens : Option (Spelling "OR" × Spelling "REPLACE") → List Token
  | none => []
  | some words => [words.1.token, words.2.token]

/-- The tokens of a heading. -/
def tokens (h : Heading) : List Token :=
  h.word.token :: (replacingTokens h.replacing ++ ((h.edition.map TokenOf.token).toList ++
    h.trigger.token :: (h.name.tokens ++ (h.moment.tokens ++
      (h.occasions.tokens Occasion.tokens ++ h.onWord.token :: (h.table.tokens ++
        h.clauses.flatMap Clause.tokens))))))

/-- The names for rows that a heading gives. -/
def aliases (h : Heading) : List Alias := h.clauses.flatMap Clause.aliases

/-- The header that is meant. Of several names for one row the last one counts, and so does the last
of several conditions. -/
def header (h : Heading) : Header where
  name := h.name.text
  orReplace := h.replacing.isSome
  timing := h.moment.timing
  events := h.occasions.items.map Occasion.event
  table := h.table.text
  forEachRow := h.clauses.any Clause.isEachRow
  newAlias := Alias.last .new h.aliases
  oldAlias := Alias.last .old h.aliases
  condition := (h.clauses.filterMap Clause.inner?).getLast?.map Fragment.ofTokens

/-- What a heading says before its clauses. -/
def plainHeader (h : Heading) : Header :=
  { name := h.name.text, orReplace := h.replacing.isSome, timing := h.moment.timing,
    events := h.occasions.items.map Occasion.event, table := h.table.text, forEachRow := false,
    newAlias := none, oldAlias := none, condition := none }

/-- The header of a heading is what its clauses make of the rest. -/
theorem amend_plainHeader (h : Heading) : Clause.amend h.clauses h.plainHeader = h.header := by
  simp [Clause.amend, plainHeader, header, aliases]

end Heading

end TriggerDialect
