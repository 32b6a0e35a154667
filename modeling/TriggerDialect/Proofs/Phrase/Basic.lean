import TriggerDialect.Grammar.Compound
import TriggerDialect.Proofs.Phrase.Leaf

/-!
# Written statements

A clause is one statement as it is written, with all its tokens in place and without the final
semicolon. Its inner statement lists are values of `β`, as in `Form β`. `Clause.tokens` is the
text of a clause and `Clause.form` what it means.
-/

namespace TriggerDialect.Phrase

/-! ### Names -/

/-- A part of a qualified name with the dot before it. -/
structure Segment where
  dot : Mark '.'
  name : TokenOf Piece.isSegment

/-- The tokens of a part of a name. -/
def Segment.tokens (segment : Segment) : List Token := [segment.dot.token, segment.name.token]

/-- A qualified name. Its parts may be reserved words, as far as they stand in a leaf. -/
structure Name where
  first : Identifier
  segments : List Segment
  isExpression : IsExpression (first.token :: segments.flatMap Segment.tokens)

namespace Name

/-- The tokens of a name. -/
def tokens (name : Name) : List Token :=
  name.first.token :: name.segments.flatMap Segment.tokens

/-- The text of a name. -/
def text (name : Name) : String :=
  Text.join "." (name.first.token.text :: name.segments.map fun segment => segment.name.token.text)

end Name

/-! ### Statements without inner statements -/

/-- A leaf that is no list. -/
abbrev Argument := LeafWithout (·.isPunct ',')

/-- Arguments with commas between them. -/
structure Arguments where
  first : Argument
  others : List (Mark ',' × Argument)

namespace Arguments

/-- The tokens of the arguments after the first. -/
def otherTokens (others : List (Mark ',' × Argument)) : List Token :=
  others.flatMap fun (comma, argument) => comma.token :: argument.tokens

/-- The tokens of the arguments. -/
def tokens (arguments : Arguments) : List Token :=
  arguments.first.tokens ++ otherTokens arguments.others

/-- The texts of the arguments. -/
def fragments (arguments : Arguments) : List Fragment :=
  arguments.first.fragment :: arguments.others.map fun (_, argument) => argument.fragment

end Arguments

/-- Arguments in brackets, which may hold none. -/
structure Bracketed where
  opening : Mark '('
  arguments : Option Arguments
  closing : Mark ')'

namespace Bracketed

/-- The tokens between the brackets. -/
def inner (b : Bracketed) : List Token := (b.arguments.map Arguments.tokens).getD []

/-- The tokens with the brackets. -/
def tokens (b : Bracketed) : List Token := b.opening.token :: b.inner ++ [b.closing.token]

/-- The texts of the arguments. -/
def fragments (b : Bracketed) : List Fragment := (b.arguments.map Arguments.fragments).getD []

end Bracketed

/-- The words that lead an SQL command. -/
inductive Verb where
  | select
  | withQuery
  | insert
  | update
  | delete
deriving Repr, DecidableEq

namespace Verb

/-- The reserved word. -/
def word : Verb → String
  | .select => "SELECT"
  | .withQuery => "WITH"
  | .insert => "INSERT"
  | .update => "UPDATE"
  | .delete => "DELETE"

/-- The statement of a command, from its first word and what follows. -/
def simple (verb : Verb) (t : Token) (rest : List Token) : Simple :=
  let sql := Fragment.ofTokens (t :: rest)
  match verb with
  | .select | .withQuery => .select sql
  | .insert => .insert sql (Grammar.insertTarget rest)
  | .update => .update sql
  | .delete => .delete sql

end Verb

/-- The two ways to leave a pass through a loop. -/
inductive Jump where
  | exit
  | next
deriving Repr, DecidableEq

namespace Jump

/-- The reserved word. -/
def word : Jump → String
  | .exit => "EXIT"
  | .next => "CONTINUE"

/-- The statement. -/
def simple : Jump → Option String → Option Fragment → Simple
  | .exit => .exitLoop
  | .next => .continueLoop

end Jump

/-- Whether a piece can start the target of an assignment. -/
def isTarget (p : Piece) : Bool := p.kind == .identifier || p.kind == .bindVariable

/-- A statement without inner statements, as it is written. -/
inductive Plain where
  | assignment (target : LeafWithout (·.isOp ":=")) (starts : target.StartsWith isTarget)
      (sign : Sign ":=") (value : Leaf)
  | call (name : Name) (brackets : Option Bracketed)
  | command (verb : Verb) (word : Token) (leads : word.isKeyword verb.word) (rest : Expression)
  | null (word : Word "NULL")
  | returnValue (word : Word "RETURN") (value : Option Leaf)
  | raise (word : Word "RAISE") (name : Option Name)
  | jump (kind : Jump) (word : Token) (leads : word.isKeyword kind.word)
      (label : Option Identifier) (condition : Option (Word "WHEN" × Leaf))
  | cursor (action : CursorAction) (word : Token) (leads : word.isKeyword action.word) (text : Leaf)
  | executeImmediate (word : Word "EXECUTE") (immediate : TokenOf (·.isWord "IMMEDIATE"))
      (text : Leaf)

namespace Plain

/-- The tokens of an optional condition. -/
def whenTokens (condition : Option (Word "WHEN" × Leaf)) : List Token :=
  (condition.map fun (word, leaf) => word.token :: leaf.tokens).getD []

/-- The tokens of the statement. -/
def tokens : Plain → List Token
  | .assignment target _ sign value => target.tokens ++ sign.token :: value.tokens
  | .call name brackets => name.tokens ++ (brackets.map Bracketed.tokens).getD []
  | .command _ word _ rest => word :: rest.tokens
  | .null word => [word.token]
  | .returnValue word value => word.token :: (value.map fun leaf => leaf.tokens).getD []
  | .raise word name => word.token :: (name.map Name.tokens).getD []
  | .jump _ word _ label condition =>
    word :: (label.map fun name => name.token).toList ++ whenTokens condition
  | .cursor _ word _ text => word :: text.tokens
  | .executeImmediate word immediate text => word.token :: immediate.token :: text.tokens

/-- What the statement means. -/
def simple : Plain → Simple
  | .assignment target _ _ value => .assignment target.fragment value.fragment
  | .call name brackets =>
    .call name.text ((brackets.map Bracketed.fragments).getD []) name.first.token.offset
  | .command verb word _ rest => verb.simple word rest.tokens
  | .null _ => .null
  | .returnValue _ value => .returnValue (value.map Leaf.fragment)
  | .raise word name => .raise (name.map Name.text) word.token.offset
  | .jump kind _ _ label condition =>
    kind.simple (label.map fun name => name.token.text)
      (condition.map fun (_, leaf) => leaf.fragment)
  | .cursor action _ _ text => .cursor action text.fragment
  | .executeImmediate _ _ text => .executeImmediate text.fragment

end Plain

/-! ### Statements with inner statements -/

variable {α β : Type}

/-- `word condition THEN body` -/
structure Guarded (word : String) (β : Type) where
  word : Word word
  condition : LeafWithout (·.isKeyword "THEN")
  thenWord : Word "THEN"
  body : β

/-- `ELSE body` -/
structure Otherwise (β : Type) where
  word : Word "ELSE"
  body : β

/-- `END word` -/
structure Closing (word : String) where
  endWord : Word "END"
  kind : Word word

/-- `LOOP body END LOOP` -/
structure Looped (β : Type) where
  word : Word "LOOP"
  body : β
  closing : Closing "LOOP"

/-- What a `FOR` loop goes through. -/
inductive Source where
  | query (opening : Mark '(') (text : Leaf) (closing : Mark ')')
  | cursor (reference : LeafWithout (·.isOp ".."))
    (starts : reference.StartsWith Piece.isIdentifier)
  | range (reverse : Option (Word "REVERSE")) (lower : LeafWithout (·.isOp ".."))
      (forward : reverse = none → lower.StartsWith (!·.isKeyword "REVERSE")) (dots : Sign "..")
      (upper : Leaf)

/-- The name of an exception: a leaf without the words of a handler. -/
structure RescueName extends Leaf where
  single : ∀ t ∈ tokens, ∀ word ∈ ["WHEN", "OR", "THEN"], t.isKeyword word = false

/-- `WHEN name OR name THEN body` -/
structure Rescue (β : Type) where
  word : Word "WHEN"
  first : RescueName
  others : List (Word "OR" × RescueName)
  thenWord : Word "THEN"
  body : β

/-- A statement as it is written, with inner statement lists in `β`. -/
inductive Clause (β : Type) where
  | plain (statement : Plain)
  | conditional (first : Guarded "IF" β) (others : List (Guarded "ELSIF" β))
      (otherwise : Option (Otherwise β)) (closing : Closing "IF")
  | selection (word : Word "CASE") (selector : Option (LeafWithout (·.isKeyword "WHEN")))
      (first : Guarded "WHEN" β) (others : List (Guarded "WHEN" β))
      (otherwise : Option (Otherwise β)) (closing : Closing "CASE")
  | counted (word : Word "FOR") (counter : Identifier) (inWord : Word "IN") (source : Source)
      (loop : Looped β)
  | whileLoop (word : Word "WHILE") (condition : Leaf) (loop : Looped β)
  | endlessLoop (loop : Looped β)
  | block (word : Word "BEGIN") (body : β)
      (exceptions : Option (Word "EXCEPTION" × List (Rescue β))) (endWord : Word "END")

/-- Another body. -/
def Guarded.map {word : String} (f : α → β) (g : Guarded word α) : Guarded word β :=
  ⟨g.word, g.condition, g.thenWord, f g.body⟩

/-- Another body. -/
def Otherwise.map (f : α → β) (o : Otherwise α) : Otherwise β := ⟨o.word, f o.body⟩

/-- Another body. -/
def Looped.map (f : α → β) (l : Looped α) : Looped β := ⟨l.word, f l.body, l.closing⟩

/-- Another body. -/
def Rescue.map (f : α → β) (r : Rescue α) : Rescue β :=
  ⟨r.word, r.first, r.others, r.thenWord, f r.body⟩

/-! ### Tokens -/

/-- The tokens of `word condition THEN body`. -/
def Guarded.tokens {word : String} (g : Guarded word (List Token)) : List Token :=
  g.word.token :: (g.condition.tokens ++ g.thenWord.token :: g.body)

/-- The tokens of `ELSE body`, if there is one. -/
def otherwiseTokens : Option (Otherwise (List Token)) → List Token
  | none => []
  | some o => o.word.token :: o.body

/-- The tokens of `END word`. -/
def Closing.tokens {word : String} (c : Closing word) : List Token :=
  [c.endWord.token, c.kind.token]

/-- The tokens of `LOOP body END LOOP`. -/
def Looped.tokens (l : Looped (List Token)) : List Token :=
  l.word.token :: l.body ++ l.closing.tokens

/-- The tokens of what a loop goes through. -/
def Source.tokens : Source → List Token
  | .query opening text closing => opening.token :: text.tokens ++ [closing.token]
  | .cursor reference _ => reference.tokens
  | .range reverse lower _ dots upper =>
    (reverse.map fun word => word.token).toList ++ (lower.tokens ++ dots.token :: upper.tokens)

namespace Rescue

/-- The tokens of the names after the first. -/
def otherNames (others : List (Word "OR" × RescueName)) : List Token :=
  others.flatMap fun (word, name) => word.token :: name.tokens

/-- The tokens of the names. -/
def names (r : Rescue β) : List Token := r.first.tokens ++ otherNames r.others

/-- The tokens from the first name on. -/
def afterWhen (r : Rescue (List Token)) : List Token := r.names ++ r.thenWord.token :: r.body

/-- The tokens of a handler. -/
def tokens (r : Rescue (List Token)) : List Token := r.word.token :: r.afterWhen

/-- The handler. -/
def handler (r : Rescue β) : Handler β :=
  ⟨render r.first.tokens, r.others.map fun (_, name) => render name.tokens, r.body,
    r.word.token.offset⟩

end Rescue

/-- The tokens of the handlers, if there are any. -/
def exceptionTokens : Option (Word "EXCEPTION" × List (Rescue (List Token))) → List Token
  | none => []
  | some (word, rescues) => word.token :: rescues.flatMap Rescue.tokens

namespace Clause

/-- The tokens of the statement, less its semicolon. -/
def tokens : Clause (List Token) → List Token
  | .plain statement => statement.tokens
  | .conditional first others otherwise closing =>
    (first.tokens ++ (others.flatMap Guarded.tokens ++ otherwiseTokens otherwise)) ++
      closing.tokens
  | .selection word selector first others otherwise closing =>
    word.token :: ((selector.map fun leaf => leaf.tokens).getD [] ++
      (first.tokens ++ (others.flatMap Guarded.tokens ++ otherwiseTokens otherwise))) ++
      closing.tokens
  | .counted word counter inWord source loop =>
    word.token :: counter.token :: inWord.token :: (source.tokens ++ loop.tokens)
  | .whileLoop word condition loop => word.token :: (condition.tokens ++ loop.tokens)
  | .endlessLoop loop => loop.tokens
  | .block word body exceptions endWord =>
    word.token :: (body ++ exceptionTokens exceptions) ++ [endWord.token]

/-- The handlers of a block. -/
def rescues : Clause β → List (Rescue β)
  | .block _ _ (some (_, rescues)) _ => rescues
  | _ => []

/-- The tokens of the head of a loop, before `LOOP`. -/
def head? : Clause β → Option (List Token)
  | .counted _ _ _ source _ => some source.tokens
  | .whileLoop _ condition _ => some condition.tokens
  | _ => none

/-- The inner lists, in source order. -/
def bodies : Clause β → List β
  | .plain _ => []
  | .conditional first others otherwise _ =>
    first.body :: others.map Guarded.body ++ (otherwise.map Otherwise.body).toList
  | .selection _ _ first others otherwise _ =>
    first.body :: others.map Guarded.body ++ (otherwise.map Otherwise.body).toList
  | .counted _ _ _ _ loop => [loop.body]
  | .whileLoop _ _ loop => [loop.body]
  | .endlessLoop loop => [loop.body]
  | .block _ body exceptions _ =>
    body :: ((exceptions.map fun e => e.2.map Rescue.body).getD [])

/-- What holds of the lists of all branches holds of each. -/
theorem forall_branches {P : β → Prop} {word word' : String} {first : Guarded word β}
    {others : List (Guarded word' β)} {otherwise : Option (Otherwise β)}
    (h : ∀ body ∈ first.body :: others.map Guarded.body ++ (otherwise.map Otherwise.body).toList,
      P body) :
    P first.body ∧ (∀ g ∈ others, P g.body) ∧ ∀ o ∈ otherwise, P o.body := by
  refine ⟨h _ (by simp), fun g hg => h _ ?_, fun o ho => h _ ?_⟩
  · simp only [List.cons_append, List.mem_cons, List.mem_append, List.mem_map]
    exact .inr (.inl ⟨g, hg, rfl⟩)
  · cases ho
    simp

/-- Applies `f` to each inner list. -/
def map (f : α → β) : Clause α → Clause β
  | .plain statement => .plain statement
  | .conditional first others otherwise closing =>
    .conditional (first.map f) (others.map (Guarded.map f)) (otherwise.map (Otherwise.map f))
      closing
  | .selection word selector first others otherwise closing =>
    .selection word selector (first.map f) (others.map (Guarded.map f))
      (otherwise.map (Otherwise.map f)) closing
  | .counted word counter inWord source loop => .counted word counter inWord source (loop.map f)
  | .whileLoop word condition loop => .whileLoop word condition (loop.map f)
  | .endlessLoop loop => .endlessLoop (loop.map f)
  | .block word body exceptions endWord =>
    .block word (f body) (exceptions.map fun e => (e.1, e.2.map (Rescue.map f))) endWord

end Clause

/-! ### Meaning -/

/-- The arm of a guarded list. -/
def Guarded.arm {word : String} (g : Guarded word β) : Arm β := ⟨g.condition.fragment, g.body⟩

/-- The loop over a source. -/
def Source.form (source : Source) (name : String) (body : β) : Form β :=
  match source with
  | .query _ text _ => .queryLoop name text.fragment body
  | .cursor reference _ => .queryLoop name reference.fragment body
  | .range reverse lower _ _ upper =>
    .rangeLoop name reverse.isSome lower.fragment upper.fragment body

namespace Clause

variable (f : α → β) (clause : Clause α)

/-- What the statement means. -/
def form : Clause β → Form β
  | .plain statement => .simple statement.simple
  | .conditional first others otherwise _ =>
    .conditional first.arm (others.map Guarded.arm) (otherwise.map Otherwise.body)
  | .selection _ selector first others otherwise _ =>
    .selection (selector.map fun leaf => leaf.fragment) (first.arm :: others.map Guarded.arm)
      (otherwise.map Otherwise.body)
  | .counted _ counter _ source loop => source.form counter.token.text loop.body
  | .whileLoop _ condition loop => .whileLoop condition.fragment loop.body
  | .endlessLoop loop => .endlessLoop loop.body
  | .block _ body exceptions _ => .block {
      declarations := none
      body
      handlers := ((exceptions.map Prod.snd).getD []).map Rescue.handler
      unparsed := [] }

theorem form_map : (clause.map f).form = clause.form.map f := by
  cases clause with
  | plain statement => rfl
  | conditional first others otherwise | selection _ _ first others otherwise =>
    cases otherwise <;> simp [map, form, Form.map, Guarded.arm, Guarded.map, Arm.map,
      Otherwise.map, Function.comp_def]
  | counted word counter inWord source loop => cases source <;> rfl
  | whileLoop | endlessLoop => rfl
  | block word body exceptions endWord =>
    cases exceptions <;> simp [map, form, Form.map, Rescue.handler, Rescue.map, Handler.map,
      Function.comp_def]

theorem bodies_form (clause : Clause β) : clause.form.bodies = clause.bodies := by
  cases clause with
  | plain statement => rfl
  | conditional | selection => simp [form, bodies, Form.bodies, Guarded.arm, Function.comp_def]
  | counted word counter inWord source loop => cases source <;> rfl
  | whileLoop | endlessLoop => rfl
  | block word body exceptions endWord =>
    cases exceptions <;> simp [form, bodies, Form.bodies, Rescue.handler, Function.comp_def]

theorem bodies_map : (clause.map f).bodies = clause.bodies.map f := by
  rw [← bodies_form, form_map, Form.bodies_map, bodies_form]

theorem body_mem_bodies {clause : Clause β} {r : Rescue β} (h : r ∈ clause.rescues) :
    r.body ∈ clause.bodies := by
  cases clause with
  | block word body exceptions endWord =>
    cases exceptions with
    | none => cases h
    | some e => exact List.mem_cons_of_mem _ (List.mem_map_of_mem h)
  | _ => cases h

theorem head?_map : (clause.map f).head? = clause.head? := by
  cases clause <;> rfl

theorem rescues_map : (clause.map f).rescues = clause.rescues.map (Rescue.map f) := by
  cases clause with
  | block word body exceptions endWord => cases exceptions <;> rfl
  | _ => rfl

end Clause

end TriggerDialect.Phrase
