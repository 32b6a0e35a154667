import TriggerDialect.Conversion
import TriggerDialect.Proofs.Lexing.Tiling
import TriggerDialect.Proofs.Mapping.Tables
import TriggerDialect.Proofs.Phrase.Plain
import TriggerDialect.Proofs.Writing.Calls

/-!
# Arguments of calls by template

A call whose function has a template is replaced by the expanded template, in an expression as well
as in a statement. Arguments without a place in the template are lost, and nothing is noted:
`arguments_kept_iff` says for which templates this cannot happen.
-/

namespace TriggerDialect

open List Text

/-- Whether the cause is about a function or procedure of that name. -/
def Cause.isAbout (name : String) (cause : Cause) : Bool :=
  cause.key == .function (upper name) || cause.key == .arity (upper name)

/-- The key of a name does not depend on its letter case. -/
theorem Mapping.key_upper (name : String) : key (upper name) = key name := by
  simp only [key, upper, trim, String.toList_ofList, trimChars_toUpper, map_map]
  congr 1
  exact map_congr_left fun c _ => toUpper_toUpper c

theorem Mapping.function?_upper (m : Mapping) (name : String) :
    m.function? (upper name) = m.function? name := by
  rw [function?, key_upper, function?]

/-! ### Literals of any length -/

/-- A string literal with so many characters between its quotes. -/
def literalOf (length : Nat) : String :=
  String.ofList ('\'' :: (replicate length 'x' ++ ['\'']))

/-- The literal as a token. -/
def literalToken (length : Nat) : Token := ⟨⟨.stringLiteral, literalOf length⟩, 0⟩

theorem length_literalOf (length : Nat) : (literalOf length).toList.length = length + 2 := by
  simp [literalOf]

theorem closesQuote_replicate (length : Nat) :
    Scan.closesQuote '\'' (replicate length 'x' ++ ['\'']) := by
  induction length with
  | zero => rfl
  | succ length ih =>
    cases length with
    | zero => rfl
    | succ length => simpa [replicate_succ, Scan.closesQuote] using ih

/-- The text of the literal is read as the literal. -/
theorem tokens_literalOf (length : Nat) :
    (Fragment.mk (literalOf length) 0).tokens = [literalToken length] := by
  have hmunch : Scan.Munches .stringLiteral '\'' (replicate length 'x' ++ ['\'']) [] :=
    Scan.munches_quote_iff.2 ⟨rfl, closesQuote_replicate length, rfl⟩
  rw [Scan.Munches, append_nil] at hmunch
  rw [Fragment.tokens, Lexing.recover_eq, literalOf, String.toList_ofList, lex_cons_ok hmunch]
  simp [Lexing.tokensAt, Lexeme.tokensFrom, Lexeme.text, literalToken, literalOf]

namespace Recast

/-- A literal is recast to itself. -/
theorem recast_literalToken (ctx : Context) (length : Nat) :
    recast ctx false [literalToken length] = ⟨[(literalToken length).toPiece], []⟩ := by
  have hliteral : literal (literalOf length) = literalOf length := by
    simp [literal, isMarkedLiteral, literalOf]
  have hstep : step ctx false (literalToken length) [] =
      .write [(literalToken length).toPiece] [] false [] := by
    simp [step, literalToken, hliteral]
  rw [recast_write hstep, recast_nil]
  rfl

end Recast

namespace Template

variable {t : Template} {index count : Nat}

/-- A template without a place for one of its arguments is expanded to a text which that argument
exceeds in length by any bound. -/
theorem exists_expand?_shorter (hserved : t.isServedBy count) (hindex : index < count)
    (hplace : t.hasPlaceFor index = false) (bound : Nat) :
    ∃ lengths : List Nat, ∃ text, lengths.length = count ∧
      t.expand? (lengths.map literalOf) = some text ∧
        ∃ length ∈ lengths, text.toList.length + bound < length := by
  let zeros := replicate count 0
  have hzeros : t.isServedBy (zeros.map literalOf).length := by
    simpa [zeros] using hserved
  obtain ⟨text, htext⟩ : ∃ text, t.expand? (zeros.map literalOf) = some text :=
    ⟨_, expand?_of_isServedBy hzeros⟩
  let long := text.toList.length + bound + 1
  refine ⟨zeros.set index long, text, by simp [zeros], ?_, long, ?_, Nat.lt_succ_self _⟩
  · rw [map_set, expand?_set hplace, htext]
  · exact mem_set (by simpa [zeros] using hindex) _

end Template

/-! ### Calls in expressions -/

namespace Recast

variable {template : Template} {name : String} {m : Mapping}

/-- A call of a function with a template, where the recasting meets it. -/
structure TemplateCall (ctx : Context) (name : String) where
  afterInto : Bool
  first : Token
  others : List Token
  template : Template
  offset : Nat
  arguments : List (List Token)
  rest : List Token
  written : Piece
  into : Bool
  bracket : List Token
  found : ctx.mapping.function? name = some template
  isCall : step ctx afterInto first others =
    .call arguments (finishTemplate name template offset) rest written into bracket

namespace TemplateCall

variable {ctx : Context} {name : String} {call : TemplateCall ctx name} {text : String}

/-- What becomes of the call. -/
def ending (call : TemplateCall ctx name) : Ending :=
  finishCall ctx call.arguments (finishTemplate name call.template call.offset)

/-- The arguments as they are put into the template. -/
def texts (call : TemplateCall ctx name) : List String :=
  call.arguments.map fun argument => (tokens ctx argument).1

/-- Where the call is replaced, each argument stands in the text that replaces it, or something is
noted about the function. -/
def KeepsArguments (call : TemplateCall ctx name) : Prop :=
  ∀ text, call.ending.text = some text → ∀ argument ∈ call.arguments,
    (tokens ctx argument).1.toList <:+: text.toList ∨
      ∃ remark ∈ call.ending.remarks, remark.cause.isAbout name

theorem ending_eq (call : TemplateCall ctx name) :
    call.ending =
      let done := finishTemplate name call.template call.offset call.texts
      ⟨done.text, (call.arguments.flatMap fun argument => (tokens ctx argument).2) ++
        done.remarks⟩ := by
  simp only [ending, finishCall, map_map, flatMap_map]
  rfl

theorem text_ending (call : TemplateCall ctx name) :
    call.ending.text = call.template.expand? call.texts := by
  simp only [ending_eq, finishTemplate]
  cases call.template.expand? call.texts <;> rfl

/-- Nothing is noted on a call that is replaced but what is noted on its arguments. -/
theorem remarks_ending (h : call.template.expand? call.texts = some text) :
    call.ending.remarks = call.arguments.flatMap fun argument => (tokens ctx argument).2 := by
  simp [ending_eq, finishTemplate, h]

/-- The text takes the place of the call in the output. -/
theorem recast_eq (h : call.template.expand? call.texts = some text) :
    recast ctx call.afterInto (call.first :: call.others) =
      (recast ctx false call.rest).after [replaced text] call.ending.remarks := by
  have htext := call.text_ending.trans h
  rw [recast_call call.isCall]
  simp only [ending] at htext ⊢
  rw [htext]

theorem keepsArguments_of_hasPlaceFor
    (h : call.template.isServedBy call.arguments.length →
      ∀ index < call.arguments.length, call.template.hasPlaceFor index) :
    call.KeepsArguments := by
  intro text htext argument hargument
  rw [text_ending] at htext
  have hserved := Template.isServedBy_of_expand? htext
  rw [texts, length_map] at hserved
  obtain ⟨index, hindex, hget⟩ := getElem_of_mem hargument
  have hplaced : call.texts[index]? = some (tokens ctx argument).1 := by
    simp [texts, getElem?_eq_getElem hindex, hget]
  exact .inl (Template.isInfix_of_expand? htext hplaced (h hserved index hindex))

end TemplateCall

/-! ### A call with literals -/

/-- The literal as an argument. -/
def literalArgument (length : Nat) : Phrase.Argument where
  tokens := [literalToken length]
  isExpression := {
    balanced := rfl
    plain := by simp [literalToken, Piece.isKeyword]
    apart := rfl
    unbroken := by simp [Phrase.Depth.outer, literalToken, Piece.isPunct] }
  nonempty := cons_ne_nil _ _
  clear := by simp [Phrase.Depth.outer, literalToken, Piece.isPunct]

/-- Literals with commas between them. -/
def literalArguments (length : Nat) (lengths : List Nat) : Phrase.Arguments where
  first := literalArgument length
  others :=
    lengths.map fun length => (.placed 0, literalArgument length)

/-- Literals between brackets. -/
def literalBracket (length : Nat) (lengths : List Nat) : Phrase.Bracketed where
  opening := .placed 0
  arguments := some (literalArguments length lengths)
  closing := .placed 0

theorem argumentsOf_literalBracket (length : Nat) (lengths : List Nat) :
    argumentsOf (literalBracket length lengths).inner =
      (length :: lengths).map fun length => [literalToken length] := by
  have hsplit := (literalArguments length lengths).splitCommas_tokens
  have hne : ¬(literalBracket length lengths).inner.isEmpty := by
    simp [literalBracket, Phrase.Bracketed.inner, Phrase.Arguments.tokens, literalArguments,
      literalArgument]
  rw [literalArguments, map_map] at hsplit
  rw [argumentsOf, if_neg hne]
  exact hsplit

/-- A name before literals in brackets is a call. -/
theorem step_literalBracket (hfound : m.function? name = some template) (length : Nat)
    (lengths : List Nat) :
    step (.plain m) false ⟨⟨.identifier, name⟩, 0⟩ (literalBracket length lengths).tokens =
      .call ((length :: lengths).map fun length => [literalToken length])
        (finishTemplate (upper name) template 0) [] (replaced name) false
        (literalBracket length lengths).tokens := by
  have hchain : chain (literalBracket length lengths).tokens =
      ([], (literalBracket length lengths).tokens) :=
    Phrase.chain_segments [] fun t ht => by
      cases ht
      rfl
  have hvalue : sqlValue? (literalBracket length lengths).tokens = none := by
    cases lengths <;> rfl
  have hcall : startsCall (literalBracket length lengths).tokens := by
    cases lengths <;> rfl
  have hgroup := (literalBracket length lengths).bracketGroup_tokens
  have hfound' : (Context.plain m).mapping.function? (upper name) = some template := by
    rw [Mapping.function?_upper]
    exact hfound
  simp only [step, hchain, identifierStep, texts, map_cons, map_nil, sequenceCall?,
    getLast?_singleton, length_singleton, hvalue, ite_self, plainStep, bareColumn?, hcall, if_true,
    bracketStep, hgroup, callStep, hfound', argumentsOf_literalBracket, join]
  rfl

/-- A call with literals for its arguments. -/
def literalCall {m : Mapping} {name : String} {template : Template}
    (hfound : m.function? name = some template) (length : Nat) (lengths : List Nat) :
    TemplateCall (.plain m) (upper name) where
  afterInto := false
  first := ⟨⟨.identifier, name⟩, 0⟩
  others := (literalBracket length lengths).tokens
  template := template
  offset := 0
  arguments := (length :: lengths).map fun length => [literalToken length]
  rest := []
  written := replaced name
  into := false
  bracket := (literalBracket length lengths).tokens
  found := (Mapping.function?_upper m name).trans hfound
  isCall := step_literalBracket hfound length lengths

theorem tokens_literalToken (ctx : Context) (length : Nat) :
    tokens ctx [literalToken length] = (literalOf length, []) := by
  rw [tokens, recast_literalToken]
  simp [Piece.render, Piece.renderChars, Piece.renderAfter, literalToken]

section

variable {m : Mapping} {name : String} {template : Template}
  (hfound : m.function? name = some template) (length : Nat) (lengths : List Nat)

theorem texts_literalCall :
    (literalCall hfound length lengths).texts = (length :: lengths).map literalOf := by
  simp [TemplateCall.texts, literalCall, tokens_literalToken]

/-- Nothing is noted on a call with literals that is replaced. -/
theorem remarks_literalCall {text : String}
    (htext : template.expand? ((length :: lengths).map literalOf) = some text) :
    (literalCall hfound length lengths).ending.remarks = [] := by
  rw [← texts_literalCall hfound] at htext
  rw [TemplateCall.remarks_ending htext]
  simp [literalCall, tokens_literalToken]

end

/-- Where an argument has no place, some call loses it: a literal longer than the whole text that
replaces the call. -/
theorem exists_not_keepsArguments {index count : Nat} (hfound : m.function? name = some template)
    (hserved : template.isServedBy count) (hindex : index < count)
    (hplace : template.hasPlaceFor index = false) :
    ∃ call : TemplateCall (.plain m) (upper name),
      call.arguments.length = count ∧ ¬call.KeepsArguments := by
  obtain ⟨lengths, text, hcount, htext, long, hlong, hlt⟩ :=
    Template.exists_expand?_shorter hserved hindex hplace 0
  obtain ⟨length, lengths, rfl⟩ := exists_cons_of_ne_nil (ne_nil_of_mem hlong)
  refine ⟨literalCall hfound length lengths, by simpa [literalCall] using hcount, fun hkeeps => ?_⟩
  have hending : (literalCall hfound length lengths).ending.text = some text := by
    rw [TemplateCall.text_ending, texts_literalCall]
    exact htext
  have hkept := hkeeps text hending [literalToken long] (mem_map.2 ⟨long, hlong, rfl⟩)
  rw [remarks_literalCall hfound length lengths htext, tokens_literalToken] at hkept
  rcases hkept with hinfix | ⟨remark, hremark, _⟩
  · have hle := hinfix.length_le
    rw [length_literalOf] at hle
    omega
  · cases hremark

end Recast

/-! ### Calls as statements -/

namespace Generate

variable {scope : Scope} {path name text : String} {arguments : List Fragment} {offset : Nat}
  {template : Template}

/-- Where a call statement is written by a template, each argument stands in its line, or something
is noted about the procedure. -/
def KeepsArguments (scope : Scope) (path name : String) (arguments : List Fragment)
    (offset : Nat) : Prop :=
  ∀ template text, scope.mapping.function? name = some template →
    template.expand? (callTexts scope path arguments) = some text → ∀ argument ∈ arguments,
      (∃ line, (callLine scope path name arguments offset).steps = [.line line] ∧
        (scope.recast (some path) argument).text.toList <:+: line.toList) ∨
      ∃ finding ∈ (callLine scope path name arguments offset).findings,
        finding.cause.isAbout name

theorem isInfix_expandedLine (text : String) : text.toList <:+: (expandedLine text).toList := by
  unfold expandedLine
  split
  · exact ⟨[], ";".toList, by simp⟩
  · exact ⟨"PERFORM ".toList, ";".toList, by simp [String.toList_append]⟩

theorem keepsArguments_of_hasPlaceFor (hfound : scope.mapping.function? name = some template)
    (h : template.isServedBy arguments.length →
      ∀ index < arguments.length, template.hasPlaceFor index) :
    KeepsArguments scope path name arguments offset := by
  intro template' text hfound' htext argument hargument
  obtain rfl : template = template' := Option.some.inj (hfound.symm.trans hfound')
  have hserved := Template.isServedBy_of_expand? htext
  rw [callTexts, length_map] at hserved
  obtain ⟨index, hindex, hget⟩ := getElem_of_mem hargument
  have hplaced : (callTexts scope path arguments)[index]? =
      some (scope.recast (some path) argument).text := by
    simp [callTexts, getElem?_eq_getElem hindex, hget]
  have hinfix := Template.isInfix_of_expand? htext hplaced (h hserved index hindex)
  refine .inl ⟨expandedLine text, ?_, hinfix.trans (isInfix_expandedLine text)⟩
  rw [callLine_of_expand? hfound htext]

/-- A literal is recast to itself, and nothing is noted. -/
theorem recast_literalOf (scope : Scope) (path : Option String) (length : Nat) :
    scope.recast path ⟨literalOf length, 0⟩ = ⟨literalOf length, []⟩ := by
  simp [Scope.recast, Recast.fragment, tokens_literalOf, Recast.tokens_literalToken, Scope.findings]

/-- Where an argument has no place, some call statement loses it, in every scope. -/
theorem exists_not_keepsArguments {index count : Nat}
    (hfound : scope.mapping.function? name = some template)
    (hserved : template.isServedBy count) (hindex : index < count)
    (hplace : template.hasPlaceFor index = false) (path : String) (offset : Nat) :
    ∃ arguments, arguments.length = count ∧
      ¬KeepsArguments scope path name arguments offset := by
  -- The line is at most nine characters longer than the text of the template.
  obtain ⟨lengths, text, hcount, htext, long, hlong, hlt⟩ :=
    Template.exists_expand?_shorter hserved hindex hplace 9
  let arguments : List Fragment := lengths.map fun length => ⟨literalOf length, 0⟩
  have hexpand : template.expand? (callTexts scope path arguments) = some text := by
    rw [← htext]
    simp [callTexts, arguments, Function.comp_def, recast_literalOf]
  refine ⟨arguments, by simpa [arguments] using hcount, fun hkeeps => ?_⟩
  have hkept := hkeeps template text hfound hexpand ⟨literalOf long, 0⟩
    (mem_map.2 ⟨long, hlong, rfl⟩)
  rw [callLine_of_expand? hfound hexpand, recast_literalOf] at hkept
  rcases hkept with ⟨line, hline, hinfix⟩ | ⟨finding, hfinding, _⟩
  · obtain rfl : expandedLine text = line := by simpa using hline
    have hle := hinfix.length_le
    have hline_le : (expandedLine text).toList.length ≤ text.toList.length + 9 := by
      unfold expandedLine
      split <;> simp
    rw [length_literalOf] at hle
    omega
  · simp [arguments, recast_literalOf] at hfinding

end Generate

open Recast Generate

/-- Every call with so many arguments keeps them exactly if the template has a place for each of
them, unless it asks for more than there are. A template without places takes the place of the
whole call. -/
theorem arguments_kept_iff {m : Mapping} {name : String} {template : Template}
    (h : m.function? name = some template) (count : Nat) :
    ((∀ ctx : Context, ctx.mapping = m → ∀ call : TemplateCall ctx (upper name),
        call.arguments.length = count → call.KeepsArguments) ↔
      (template.isServedBy count = true → ∀ index < count, template.hasPlaceFor index = true)) ∧
    ((∀ scope : Scope, scope.mapping = m → ∀ path arguments offset, arguments.length = count →
        KeepsArguments scope path name arguments offset) ↔
      (template.isServedBy count = true → ∀ index < count, template.hasPlaceFor index = true)) ∧
    (template.hasPlaces = false → ∀ ctx : Context, ctx.mapping = m →
      ∀ call : TemplateCall ctx (upper name),
        recast ctx call.afterInto (call.first :: call.others) =
          (recast ctx false call.rest).after [replaced template.source] call.ending.remarks) := by
  have htemplate : ∀ ctx : Context, ctx.mapping = m → ∀ call : TemplateCall ctx (upper name),
      call.template = template := by
    rintro ctx rfl call
    exact Option.some.inj (call.found.symm.trans ((Mapping.function?_upper _ name).trans h))
  refine ⟨⟨fun hkeeps hserved index hindex => ?_, ?_⟩,
    ⟨fun hkeeps hserved index hindex => ?_, ?_⟩, ?_⟩
  · by_contra hplace
    rw [Bool.not_eq_true] at hplace
    obtain ⟨call, hcount, hdrops⟩ :=
      Recast.exists_not_keepsArguments h hserved hindex hplace
    exact hdrops (hkeeps _ rfl call hcount)
  · rintro hplaces ctx hctx call rfl
    apply TemplateCall.keepsArguments_of_hasPlaceFor
    rw [htemplate ctx hctx call]
    exact hplaces
  · by_contra hplace
    rw [Bool.not_eq_true] at hplace
    let scope : Scope := ⟨.plain m, false, none, []⟩
    have hscope : scope.mapping.function? name = some template := h
    obtain ⟨arguments, hcount, hdrops⟩ :=
      Generate.exists_not_keepsArguments hscope hserved hindex hplace "" 0
    exact hdrops (hkeeps scope rfl "" arguments 0 hcount)
  · rintro hplaces scope rfl path arguments offset rfl
    exact keepsArguments_of_hasPlaceFor h hplaces
  · intro hplaces ctx hctx call
    apply TemplateCall.recast_eq
    rw [htemplate ctx hctx call]
    exact Template.expand?_of_not_hasPlaces hplaces _

/-- `NVL` keeps two arguments, but not three. -/
theorem arguments_kept_nvl :
    Mapping.oracle.function? "nvl" = some ⟨"COALESCE(\x7b0\x7d, \x7b1\x7d)"⟩ ∧
      (∀ ctx : Context, ctx.mapping = .oracle → ∀ call : TemplateCall ctx "NVL",
        call.arguments.length = 2 → call.KeepsArguments) ∧
      ¬∀ ctx : Context, ctx.mapping = .oracle → ∀ call : TemplateCall ctx "NVL",
        call.arguments.length = 3 → call.KeepsArguments := by
  have hfound : Mapping.oracle.function? "nvl" = some ⟨"COALESCE(\x7b0\x7d, \x7b1\x7d)"⟩ := by
    decide +kernel
  have hname : upper "nvl" = "NVL" := by decide
  have htwo := (arguments_kept_iff hfound 2).1
  have hthree := (arguments_kept_iff hfound 3).1
  rw [hname] at htwo hthree
  refine ⟨hfound, htwo.2 (by decide +kernel), fun hkeeps => ?_⟩
  have hplace := hthree.1 hkeeps (by decide +kernel) 2 (by decide)
  revert hplace
  decide +kernel

/-- A template without places does not rename the function: the argument is gone, and nothing is
reported. -/
theorem arguments_dropped :
    (convert (Mapping.oracle.insertFunction "F" "g") .standard "BEGIN v := F(x); END;").toOption.map
        (fun conversion => (conversion.sql, conversion.diagnostics)) =
      some ("BEGIN\n    v := g;\nEND;\n", []) := by
  decide +kernel

end TriggerDialect
