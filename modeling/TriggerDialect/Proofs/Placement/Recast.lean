import TriggerDialect.Proofs.Placement.Cutting
import TriggerDialect.Recast.Basic

/-!
# Recasting with moved offsets

Expressions are recast in the same way when all offsets are moved, and the remarks move along
(`recast_moved`). So the text of a fragment alone decides what becomes of it (`fragment_congr`).
-/

namespace TriggerDialect.Recast

variable (r : Relocation) (ctx : Context) (ts : List Token) (afterInto : Bool) (t : Token)

instance : Placed Remark := ⟨fun r remark => { remark with offset := r.target remark.offset }⟩

instance : Placed Result := ⟨fun r result => { result with remarks := moved r result.remarks }⟩

instance : Placed Ending := ⟨fun r ending => { ending with remarks := moved r ending.remarks }⟩

instance : Placed Step where
  moved r
    | .write pieces remarks into rest => .write pieces (moved r remarks) into (moved r rest)
    | .call arguments finish rest name into bracket =>
      .call (moved r arguments) (fun texts => moved r (finish texts)) (moved r rest) name into
        (moved r bracket)

@[simp] theorem moved_write (pieces : List Piece) (remarks : List Remark) (into : Bool)
    (rest : List Token) :
    moved r (Step.write pieces remarks into rest) =
      .write pieces (moved r remarks) into (moved r rest) := rfl

theorem moved_guard {α : Type} [Placed α] (b : Bool) (a : Option α) :
    (if b then moved r a else none) = moved r (if b then a else none) := by
  cases b <;> rfl

/-! ### Single tokens -/

@[simp] theorem bind_moved : bind ctx (moved r t) = ((bind ctx t).1, moved r (bind ctx t).2) := by
  simp only [bind, toPiece_moved, offset_moved]
  split <;> rfl

@[simp] theorem startsOuterJoin_moved : startsOuterJoin (moved r ts) = startsOuterJoin ts := by
  match ts with
  | [] => rfl
  | [t] => rfl
  | [t, u] => rfl
  | t :: u :: v :: rest => rfl

@[simp] theorem afterDual?_moved : afterDual? (moved r ts) = moved r (afterDual? ts) := by
  match ts with
  | [] => rfl
  | [t] =>
    simp only [moved_cons, moved_nil, afterDual?, toPiece_moved]
    split <;> rfl
  | t :: dot :: rest =>
    simp only [moved_cons, afterDual?, toPiece_moved]
    split
    · split <;> rfl
    · rfl

/-! ### Calls -/

theorem typeText_moved (type : DeclaredType) (offset : Nat) :
    typeText ctx type (r.target offset) =
      ((typeText ctx type offset).1, moved r (typeText ctx type offset).2) := by
  simp only [typeText]
  split <;> rfl

@[simp] theorem argumentsOf_moved (inner : List Token) :
    argumentsOf (moved r inner) = moved r (argumentsOf inner) := by
  simp only [argumentsOf, isEmpty_moved, splitCommas_moved]
  split <;> rfl

theorem finishTemplate_moved (name : String) (template : Template) (offset : Nat) :
    finishTemplate name template (r.target offset) =
      fun texts => moved r (finishTemplate name template offset texts) := by
  funext texts
  simp only [finishTemplate]
  split <;> rfl

theorem finishCast_moved (type : DeclaredType) (offset : Nat) :
    finishCast ctx type (r.target offset) =
      fun texts => moved r (finishCast ctx type offset texts) := by
  funext texts
  simp only [finishCast, typeText_moved]
  rfl

@[simp] theorem splitLastAs_moved : splitLastAs (moved r ts) = moved r (splitLastAs ts) := by
  fun_induction splitLastAs ts with
  | case1 ts front hspan =>
    rw [splitLastAs_eq, spanAtDepth_moved, hspan]
    rfl
  | case2 ts front word rest hspan hlt hlast ih =>
    rw [splitLastAs_eq, spanAtDepth_moved, hspan]
    simp only [moved_pair, moved_cons, ih, hlast]
    rfl
  | case3 ts front word rest hspan hlt more last hlast ih =>
    rw [splitLastAs_eq, spanAtDepth_moved, hspan]
    simp [ih, hlast]

@[simp] theorem updatedColumn?_moved : updatedColumn? (moved r ts) = updatedColumn? ts := by
  match ts with
  | [] => rfl
  | [t] => rfl
  | t :: u :: rest => rfl

theorem callStep_moved (name : String) (offset : Nat) (written : Piece) (into : Bool)
    (bracket inner rest : List Token) :
    callStep ctx name (r.target offset) written into (moved r bracket) (moved r inner)
      (moved r rest) = moved r (callStep ctx name offset written into bracket inner rest) := by
  simp only [callStep, argumentsOf_moved, finishTemplate_moved, splitLastAs_moved, finishCast_moved,
    updatedColumn?_moved]
  split
  · rfl
  · split
    · rcases splitLastAs inner with _ | ⟨value, target⟩
      · rfl
      · simp only [moved_some, moved_pair, render_moved]
        split <;> rfl
    · split
      · rfl
      · split
        · split <;> rfl
        · split <;> rfl

/-! ### Identifiers -/

@[simp] theorem texts_moved : texts (moved r ts) = texts ts :=
  Grammar.texts_moved r ts

@[simp] theorem endsInto_moved : endsInto (moved r ts) = endsInto ts := by
  simp only [endsInto, moved_list, List.getLast?_map]
  cases ts.getLast? <;> rfl

@[simp] theorem sqlValue?_moved : sqlValue? (moved r ts) = moved r (sqlValue? ts) := by
  match ts with
  | [] => rfl
  | [t] => rfl
  | percent :: asked :: rest =>
    simp only [moved_cons, sqlValue?, toPiece_moved]
    split
    · cases sqlAttribute? asked.upper <;> rfl
    · rfl

@[simp] theorem asksRowCount_moved : asksRowCount (moved r ts) = asksRowCount ts := by
  match ts with
  | [] => rfl
  | [t] => rfl
  | percent :: asked :: rest => rfl

theorem nameStep_moved (names : List String) (offset : Nat) (into : Bool) (remarks : List Remark)
    (rest : List Token) :
    nameStep ctx names (r.target offset) into (moved r remarks) (moved r rest) =
      moved r (nameStep ctx names offset into remarks rest) := by
  simp only [nameStep]
  split
  · split
    · rfl
    · split
      · simp only [moved_write, moved_append]
        rfl
      · simp
  · rfl

@[simp] theorem startsCall_moved : startsCall (moved r ts) = startsCall ts := by
  cases ts with
  | nil => rfl
  | cons t rest =>
    have hjoin := startsOuterJoin_moved r (t :: rest)
    simp only [moved_cons, startsCall, toPiece_moved] at hjoin ⊢
    rw [hjoin]

theorem bracketStep_moved (names : List String) (offset : Nat) (afterInto into : Bool)
    (rest : List Token) :
    bracketStep ctx names (r.target offset) afterInto into (moved r rest) =
      moved r (bracketStep ctx names offset afterInto into rest) := by
  simp only [bracketStep, bracketGroup_moved]
  split
  · rfl
  · rcases bracketGroup rest with _ | ⟨inner, after⟩
    · rfl
    · exact callStep_moved r ctx _ offset _ into rest inner after

theorem rowCountRemarks_moved (isSql : Bool) (offset : Nat) (rest : List Token) :
    rowCountRemarks isSql (r.target offset) (moved r rest) =
      moved r (rowCountRemarks isSql offset rest) := by
  simp only [rowCountRemarks, asksRowCount_moved]
  split <;> rfl

theorem plainStep_moved (isSql : Bool) (t : Token) (more rest : List Token) :
    plainStep ctx afterInto isSql (moved r t) (moved r more) (moved r rest) =
      moved r (plainStep ctx afterInto isSql t more rest) := by
  have htexts := texts_moved r (t :: more)
  have hinto := endsInto_moved r (t :: more)
  rw [moved_cons] at htexts hinto
  simp only [plainStep, htexts, hinto, startsCall_moved, offset_moved, bracketStep_moved,
    rowCountRemarks_moved, nameStep_moved]
  split
  · rfl
  · split <;> rfl

theorem identifierStep_moved (more rest : List Token) :
    identifierStep ctx afterInto (moved r t) (moved r more) (moved r rest) =
      moved r (identifierStep ctx afterInto t more rest) := by
  have htexts := texts_moved r (t :: more)
  have hinto := endsInto_moved r (t :: more)
  rw [moved_cons] at htexts hinto
  simp only [identifierStep, htexts, hinto, sqlValue?_moved, plainStep_moved, moved_guard]
  split
  · rfl
  · generalize (if (Text.upper (Text.join "." (texts (t :: more))) == "SQL") then sqlValue? rest
      else none) = found
    cases found <;> rfl

theorem keywordStep_moved (rest : List Token) :
    keywordStep (moved r t) (moved r rest) = moved r (keywordStep t rest) := by
  simp only [keywordStep, toPiece_moved, afterDual?_moved, moved_guard]
  generalize (if t.isKeyword "FROM" then afterDual? rest else none) = found
  cases found with
  | some after => rfl
  | none =>
    simp only [moved_none]
    split <;> rfl

/-- A step is the same when all offsets are moved. -/
theorem step_moved (rest : List Token) :
    step ctx afterInto (moved r t) (moved r rest) = moved r (step ctx afterInto t rest) := by
  have hjoin := startsOuterJoin_moved r (t :: rest)
  rw [moved_cons] at hjoin
  simp only [step, toPiece_moved, bind_moved, keywordStep_moved, chain_moved, fst_moved, snd_moved,
    identifierStep_moved, hjoin, offset_moved]
  cases t.kind with
  | punctuation =>
    simp only
    split <;> rfl
  | _ => rfl

theorem after_moved (pieces : List Piece) (remarks : List Remark) (result : Result) :
    (moved r result).after pieces (moved r remarks) = moved r (result.after pieces remarks) := by
  simp [Result.after, moved]

theorem finishCall_moved {arguments : List (List Token)} {finish : List String → Ending}
    (h : ∀ argument ∈ arguments,
      recast ctx false (moved r argument) = moved r (recast ctx false argument)) :
    finishCall ctx (moved r arguments) (fun texts => moved r (finish texts)) =
      moved r (finishCall ctx arguments finish) := by
  have hresults : (moved r arguments).map (recast ctx false) =
      moved r (arguments.map (recast ctx false)) := moved_map r h
  have htexts : ∀ results : List Result,
      (moved r results).map (fun result => Piece.render result.pieces) =
        results.map fun result => Piece.render result.pieces := by
    intro results
    rw [moved_list, List.map_map]
    rfl
  have hremarks : ∀ results : List Result,
      (moved r results).flatMap Result.remarks = moved r (results.flatMap Result.remarks) :=
    fun results => moved_flatMap r fun _ _ => rfl
  simp only [finishCall, hresults, htexts, hremarks]
  change Ending.mk _ (_ ++ moved r _) = _
  rw [← moved_append]
  rfl

/-- A token list is recast in the same way when all offsets are moved. -/
@[simp] theorem recast_moved :
    recast ctx afterInto (moved r ts) = moved r (recast ctx afterInto ts) := by
  -- every step leaves fewer tokens, so that the induction is on their number
  induction ts using shorterInduction generalizing afterInto with
  | shorter ts ih =>
    cases ts with
    | nil => simp [moved]
    | cons t rest =>
      have hstep := step_moved r ctx afterInto t rest
      have hpending := step_pending ctx afterInto t rest
      rw [moved_cons]
      cases h : step ctx afterInto t rest with
      | write pieces remarks into after =>
        rw [h] at hstep hpending
        rw [recast_write hstep, recast_write h,
          ih after (hpending after (List.mem_singleton_self _)), after_moved]
      | call arguments finish after name into bracket =>
        rw [h] at hstep hpending
        have hcall : finishCall ctx (moved r arguments) (fun texts => moved r (finish texts)) =
            moved r (finishCall ctx arguments finish) :=
          finishCall_moved r ctx fun argument hargument =>
            ih argument (hpending argument (by simp [Step.pending, hargument])) false
        have hafter := ih after (hpending after (by simp [Step.pending])) false
        have hbracket := ih bracket (hpending bracket (by simp [Step.pending])) into
        have htext : (moved r (finishCall ctx arguments finish)).text =
            (finishCall ctx arguments finish).text := rfl
        have hremarks : (moved r (finishCall ctx arguments finish)).remarks =
            moved r (finishCall ctx arguments finish).remarks := rfl
        rw [recast_call hstep, recast_call h, hcall, hafter, hbracket]
        simp only [htext, hremarks, after_moved]
        cases (finishCall ctx arguments finish).text <;> rfl

theorem erase_tokens {f f' : Fragment} (h : f.text = f'.text) :
    moved .erase f.tokens = moved .erase f'.tokens := by
  rw [Fragment.tokens, Fragment.tokens, h, moved_list, moved_list, List.map_map, List.map_map]
  rfl

/-- What becomes of a fragment is decided by its text, and what is remarked on it, too. -/
theorem fragment_congr {f f' : Fragment} (h : f.text = f'.text) :
    (fragment ctx f).1 = (fragment ctx f').1 ∧
      moved .erase (fragment ctx f).2 = moved .erase (fragment ctx f').2 := by
  have hresult : moved .erase (recast ctx false f.tokens) =
      moved .erase (recast ctx false f'.tokens) := by
    rw [← recast_moved, ← recast_moved, erase_tokens h]
  have hpieces := congrArg Result.pieces hresult
  have hremarks := congrArg Result.remarks hresult
  exact ⟨congrArg Piece.render hpieces, hremarks⟩

end TriggerDialect.Recast
