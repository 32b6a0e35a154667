import TriggerDialect.Diagnostic
import TriggerDialect.Nesting
import TriggerDialect.Tree.Form

/-!
# Reading exception handlers

A handler starts at a `WHEN` outside all nesting that begins a statement, so that `EXIT WHEN` and
`CASE WHEN` inside bodies start none. Text that is no handler is kept, with an error.
-/

namespace TriggerDialect.Grammar

/-- The tokens of an inner statement list, and what to report before reading it. -/
structure Slice where
  tokens : List Token
  before : List Diagnostic
deriving Repr, DecidableEq

/-- One stretch of an exception section. -/
inductive HandlerSpan where
  | handler (h : Handler (List Token))
  | unparsed (reason : String) (text : Fragment)
deriving Repr, DecidableEq

/-- An exception section whose bodies are still tokens. -/
structure HandlerSection where
  handlers : List (Handler Slice)
  unparsed : List Fragment
  /-- What to report after the last body. -/
  after : List Diagnostic
deriving Repr, DecidableEq

/-- The parts between the tokens that satisfy `p`. -/
def splitAt (p : Token → Bool) : List Token → List (List Token)
  | [] => [[]]
  | t :: rest =>
    if p t then [] :: splitAt p rest
    else match splitAt p rest with
      | [] => [[t]]
      | part :: parts => (t :: part) :: parts

/-- The names of a handler, with `OR` between them. -/
def handlerNames (ts : List Token) : Option (String × List String) :=
  let parts := splitAt (·.isKeyword "OR") ts
  if parts.any List.isEmpty then none
  else match parts.map render with
    | [] => none
    | name :: more => some (name, more)

/-- `name OR name THEN body`, after the `WHEN` that stands at `offset`. -/
def handlerAfterWhen (offset : Nat) (ts : List Token) : Except String (Handler (List Token)) :=
  match spanAtDepth (·.isKeyword "THEN") ts with
  | (_, []) => .error "WHEN without THEN"
  | (front, _ :: body) =>
    match handlerNames front with
    | none => .error "missing exception name"
    | some (name, more) => .ok ⟨name, more, body, offset⟩

/-- The handler that a `WHEN` starts, or its text. -/
def handlerSpan (word : Token) (ts : List Token) : HandlerSpan :=
  match handlerAfterWhen word.offset ts with
  | .ok h => .handler h
  | .error reason => .unparsed reason (Fragment.ofTokens (word :: ts))

/-- The stretches from a `WHEN` on. -/
def handlersFrom (word : Token) (ts : List Token) : List HandlerSpan :=
  match h : spanClause ["WHEN"] ts with
  | (span, []) => [handlerSpan word span]
  | (span, next :: rest) =>
    have : rest.length < ts.length := spanClause_rest_lt h
    handlerSpan word span :: handlersFrom next rest
termination_by ts.length

/-- The text before the first handler, if there is any. -/
def textBefore (ts : List Token) : List HandlerSpan :=
  if ts.isEmpty then [] else [.unparsed "text before the first WHEN" (Fragment.ofTokens ts)]

/-- The stretches of an exception section. -/
def handlerSpans (ts : List Token) : List HandlerSpan :=
  match spanClause ["WHEN"] ts with
  | (front, []) => textBefore front
  | (front, word :: rest) => textBefore front ++ handlersFrom word rest

/-- The report on text that is no handler, in the section at `path`. -/
def unparsedNote (path reason : String) (text : Fragment) : Diagnostic :=
  .errorAt .handler (some text.offset) (Path.named? path)
    s!"{reason}; kept as a comment: {text.text}"

/-- The handlers, each with what to report before its body, and what is left to report. -/
def withNotes (path : String) (pending : List Diagnostic) :
    List HandlerSpan → List (Handler Slice) × List Diagnostic
  | [] => ([], pending)
  | .handler h :: rest =>
    let later := withNotes path [] rest
    (h.map (⟨·, pending⟩) :: later.1, later.2)
  | .unparsed reason text :: rest =>
    withNotes path (pending ++ [unparsedNote path reason text]) rest

/-- The text of a stretch that is no handler. -/
def HandlerSpan.text? : HandlerSpan → Option Fragment
  | .handler _ => none
  | .unparsed _ text => some text

/-- The report on an `OTHERS` handler that is followed by another handler. -/
def othersNotes {β : Type} (handlers : List (Handler β)) : List Diagnostic :=
  match handlers.dropWhile fun h => !h.isOthers with
  | h :: _ :: _ =>
    [.warning .handler (some h.offset) "WHEN OTHERS is not the last handler; it is emitted last"]
  | _ => []

/-- The exception section at `path`. -/
def readHandlers (path : String) (ts : List Token) : HandlerSection :=
  let spans := handlerSpans ts
  let (handlers, pending) := withNotes path [] spans
  ⟨handlers, spans.filterMap HandlerSpan.text?, pending ++ othersNotes handlers⟩

/-- No exception section. -/
def HandlerSection.none : HandlerSection := ⟨[], [], []⟩

/-! ### Where the bodies stand -/

variable {ts : List Token} {word : Token} {h : Handler (List Token)}

/-- The body of a handler is a run of its tokens. -/
theorem handlerSpan_isInfix (hspan : handlerSpan word ts = .handler h) : h.body <:+: ts := by
  unfold handlerSpan at hspan
  split at hspan
  · rename_i h' hread
    cases hspan
    unfold handlerAfterWhen at hread
    split at hread
    · cases hread
    · rename_i front thenWord body hcut
      split at hread
      · cases hread
      · cases hread
        exact (Behind.of_spanFrom hcut).isInfix
  · cases hspan

/-- So is the body of each of several handlers. -/
theorem handlersFrom_isInfix (hmem : .handler h ∈ handlersFrom word ts) : h.body <:+: ts := by
  fun_induction handlersFrom word ts with
  | case1 word ts span hspan =>
    exact (handlerSpan_isInfix (List.mem_singleton.1 hmem).symm).trans (isInfix_of_spanFrom hspan)
  | case2 word ts span next rest hspan hlt ih =>
    rcases List.mem_cons.1 hmem with hmem | hmem
    · exact (handlerSpan_isInfix hmem.symm).trans (isInfix_of_spanFrom hspan)
    · exact (ih hmem).trans (Behind.of_spanFrom hspan).isInfix

/-- The body of a handler stands behind its `WHEN`. -/
theorem handlerSpans_behind (hmem : .handler h ∈ handlerSpans ts) : Behind h.body ts := by
  have hbefore : ∀ front, HandlerSpan.handler h ∉ textBefore front := by
    intro front
    unfold textBefore
    split <;> simp
  unfold handlerSpans at hmem
  split at hmem
  · exact absurd hmem (hbefore _)
  · rename_i front word rest hspan
    rcases List.mem_append.1 hmem with hmem | hmem
    · exact absurd hmem (hbefore _)
    · exact .of_isInfix (handlersFrom_isInfix hmem) (.of_spanFrom hspan)

/-- Notes change no handler. -/
theorem mem_withNotes {path : String} {pending : List Diagnostic} {spans : List HandlerSpan}
    {h : Handler Slice} (hmem : h ∈ (withNotes path pending spans).1) :
    .handler (h.map Slice.tokens) ∈ spans := by
  fun_induction withNotes path pending spans with
  | case1 => simp at hmem
  | case2 pending h' rest later ih =>
    rcases List.mem_cons.1 hmem with rfl | hmem
    · simp [Handler.map]
    · exact List.mem_cons_of_mem _ (ih hmem)
  | case3 pending reason text rest ih => exact List.mem_cons_of_mem _ (ih hmem)

/-- The body of a handler is a run of the section behind its first token. -/
theorem readHandlers_behind {path : String} {h : Handler Slice}
    (hmem : h ∈ (readHandlers path ts).handlers) : Behind h.body.tokens ts :=
  handlerSpans_behind (mem_withNotes hmem)

end TriggerDialect.Grammar
