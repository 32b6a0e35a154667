import TriggerDialect.Proofs.Placement.Cutting

/-!
# Reading declarations with moved offsets

A declaration is read in the same way when all offsets are moved. Only the offsets that it carries
move along.
-/

namespace TriggerDialect.Grammar

variable (r : Relocation) (ts : List Token) (name : String) (offset : Nat)

instance : Placed Span := ⟨fun r span => { span with tokens := moved r span.tokens }⟩

instance : Placed InitialValue where
  moved r
    | .absent => .absent
    | .null => .null
    | .given value => .given (moved r value)

instance : Placed TypedValue := ⟨fun r typed => { typed with value := moved r typed.value }⟩

@[simp] theorem moved_span (closed : Bool) :
    moved r (⟨ts, closed⟩ : Span) = ⟨moved r ts, closed⟩ := rfl

@[simp] theorem tokens_moved (span : Span) : (moved r span).tokens = moved r span.tokens := rfl

@[simp] theorem declarationSpans_moved :
    declarationSpans (moved r ts) = moved r (declarationSpans ts) := by
  fun_induction declarationSpans ts with
  | case1 ts span hspan hempty =>
    rw [declarationSpans_eq, spanAtDepth_moved, hspan]
    simp_all
  | case2 ts span hspan hempty =>
    rw [declarationSpans_eq, spanAtDepth_moved, hspan]
    simp_all
  | case3 ts span semicolon rest hspan hlt hempty ih =>
    rw [declarationSpans_eq, spanAtDepth_moved, hspan]
    simp_all
  | case4 ts span semicolon rest hspan hlt hempty ih =>
    rw [declarationSpans_eq, spanAtDepth_moved, hspan]
    simp_all

@[simp] theorem initialValue_moved : initialValue (moved r ts) = moved r (initialValue ts) := by
  match ts with
  | [] => rfl
  | [t] =>
    have hwhole := Fragment.ofTokens_moved r [t]
    simp only [moved_cons, moved_nil, initialValue, toPiece_moved] at hwhole ⊢
    rw [hwhole]
    split
    · rfl
    · split
      · split <;> rfl
      · rfl
  | t :: u :: rest =>
    have hwhole := Fragment.ofTokens_moved r (t :: u :: rest)
    simp only [moved_cons, initialValue] at hwhole ⊢
    rw [hwhole]
    rfl

@[simp] theorem splitNotNull_moved : splitNotNull (moved r ts) = moved r (splitNotNull ts) := by
  simp only [splitNotNull, ← moved_reverse]
  match ts.reverse with
  | [] => rfl
  | [t] => rfl
  | last :: before :: front =>
    simp only [moved_cons, toPiece_moved]
    split
    · simp
    · rfl

@[simp] theorem typedValue_moved : typedValue (moved r ts) = moved r (typedValue ts) := by
  simp only [typedValue, spanAtDepth_moved, fst_moved, snd_moved, splitNotNull_moved, render_moved]
  cases DeclaredType.parse? (render (splitNotNull (spanAtDepth startsValue ts).1).1) with
  | none => rfl
  | some type =>
    cases (spanAtDepth startsValue ts).2 with
    | nil => rfl
    | cons sign value =>
      simp only [moved_cons, initialValue_moved]
      exact moved_map_except r fun _ => rfl

@[simp] theorem cursorParameter_moved :
    cursorParameter (moved r ts) = moved r (cursorParameter ts) := by
  cases ts with
  | nil => rfl
  | cons t rest =>
    have htyped : ∀ ts, (typedValue (moved r ts)).map (fun typed => ⟨t.text, typed.type⟩) =
        moved r ((typedValue ts).map fun typed => (⟨t.text, typed.type⟩ : CursorParameter)) := by
      intro ts
      rw [typedValue_moved]
      exact moved_map_except r fun _ => rfl
    simp only [moved_cons, cursorParameter, toPiece_moved]
    split
    · cases rest with
      | nil => exact htyped []
      | cons mode tail =>
        simp only [moved_cons, toPiece_moved]
        split
        · exact htyped tail
        · exact htyped (mode :: tail)
    · rfl

theorem mapM_cursorParameter_moved (parts : List (List Token)) :
    (moved r parts).mapM cursorParameter = moved r (parts.mapM cursorParameter) := by
  induction parts with
  | nil => rfl
  | cons part parts ih =>
    simp only [moved_cons, List.mapM_cons, cursorParameter_moved, ih]
    cases cursorParameter part with
    | error reason => rfl
    | ok parameter => cases parts.mapM cursorParameter <;> rfl

@[simp] theorem cursorParameters_moved :
    cursorParameters (moved r ts) = moved r (cursorParameters ts) := by
  cases ts with
  | nil => rfl
  | cons t rest =>
    have hgroup := bracketGroup_moved r (t :: rest)
    simp only [moved_cons, cursorParameters, toPiece_moved] at hgroup ⊢
    rw [hgroup]
    split
    · rcases bracketGroup (t :: rest) with _ | ⟨inner, after⟩
      · rfl
      · simp only [moved_some, moved_pair, splitCommas_moved, mapM_cursorParameter_moved]
        exact moved_map_except r fun _ => rfl
    · rfl

@[simp] theorem skipReturn_moved : skipReturn (moved r ts) = moved r (skipReturn ts) := by
  simp only [skipReturn, eatWord?_moved]
  cases eatWord? "RETURN" ts with
  | none => rfl
  | some rest =>
    simp only [moved_some, spanAtDepth_moved, snd_moved]
    cases (spanAtDepth (·.isKeyword "IS") rest).2 <;> rfl

@[simp] theorem cursorQuery_moved :
    cursorQuery name (moved r ts) = moved r (cursorQuery name ts) := by
  simp only [cursorQuery, expectWord_moved]
  rcases expectWord "IS" ts with stuck | _ | ⟨t, rest⟩
  · rfl
  · rfl
  · have hquery := Fragment.ofTokens_moved r (t :: rest)
    simp only [moved_ok, moved_cons] at hquery ⊢
    rw [hquery]

@[simp] theorem cursor_moved :
    cursor (r.target offset) (moved r ts) = moved r (cursor offset ts) := by
  simp only [cursor, name_moved]
  rcases name ts with stuck | ⟨name, rest⟩
  · rfl
  · simp only [moved_ok, moved_pair, cursorParameters_moved, moved_string]
    rcases cursorParameters rest with reason | ⟨parameters, rest⟩
    · rfl
    · simp only [moved_ok, moved_pair, bind, Except.bind, skipReturn_moved]
      cases skipReturn rest with
      | error reason => rfl
      | ok rest =>
        simp only [moved_ok, cursorQuery_moved]
        have hparameters : moved r parameters = parameters := List.map_id' parameters
        cases cursorQuery name rest with
        | error reason => rfl
        | ok query => rw [hparameters]; rfl

@[simp] theorem constant_moved :
    constant name (r.target offset) (moved r ts) = moved r (constant name offset ts) := by
  simp only [constant, typedValue_moved]
  rcases typedValue ts with reason | ⟨type, notNull, _ | _ | value⟩ <;> rfl

@[simp] theorem namedDeclaration_moved :
    namedDeclaration name (r.target offset) (moved r ts) =
      moved r (namedDeclaration name offset ts) := by
  have htyped : (typedValue (moved r ts)).map (fun typed => Declaration.ofVariable
      ⟨name, typed.type, typed.value.initializer?, typed.notNull, r.target offset⟩) =
      moved r ((typedValue ts).map fun typed => Declaration.ofVariable
        ⟨name, typed.type, typed.value.initializer?, typed.notNull, offset⟩) := by
    rw [typedValue_moved]
    refine moved_map_except r fun typed => ?_
    rcases typed with ⟨type, notNull, _ | _ | value⟩ <;> rfl
  cases ts with
  | nil => exact htyped
  | cons t rest =>
    simp only [moved_cons, namedDeclaration, toPiece_moved, isEmpty_moved,
      constant_moved] at htyped ⊢
    rw [htyped]
    split
    · rfl
    · split
      · exact moved_map_except r fun _ => rfl
      · rfl

@[simp] theorem declaration_moved : declaration (moved r ts) = moved r (declaration ts) := by
  cases ts with
  | nil => rfl
  | cons t rest =>
    simp only [moved_cons, declaration, toPiece_moved, offset_moved, cursor_moved,
      namedDeclaration_moved]
    split
    · exact moved_map_except r fun _ => rfl
    · repeat' split
      all_goals rfl

@[simp] theorem readDeclaration_moved :
    readDeclaration (moved r ts) = moved r (readDeclaration ts) := by
  simp only [readDeclaration, declaration_moved, Fragment.ofTokens_moved]
  cases declaration ts <;> rfl

@[simp] theorem declarationNotes_moved (span : Span) :
    declarationNotes (moved r span) = moved r (declarationNotes span) := by
  have hclosed : (moved r span).closed = span.closed := rfl
  simp only [declarationNotes, tokens_moved, declaration_moved, Fragment.ofTokens_moved, hclosed]
  cases declaration span.tokens with
  | error reason => cases span.closed <;> rfl
  | ok d => cases span.closed <;> rfl

theorem ofList_moved (items : List Declaration) :
    Declarations.ofList (moved r items) = moved r (Declarations.ofList items) := by
  simp only [Declarations.ofList]
  rw [moved_filterMap r fun item => ?_, moved_filterMap r fun item => ?_,
    moved_filterMap r fun item => ?_, moved_filterMap r fun item => ?_,
    moved_filterMap r fun item => ?_]
  · rfl
  all_goals cases item <;> rfl

@[simp] theorem readDeclarations_moved :
    readDeclarations (moved r ts) = moved r (readDeclarations ts) := by
  simp only [readDeclarations, declarationSpans_moved, moved_pair]
  rw [moved_map (f := fun span : Span => readDeclaration span.tokens) r (by simp),
    moved_flatMap (f := declarationNotes) r (by simp), ofList_moved]

end TriggerDialect.Grammar
