import TriggerDialect.Proofs.Placement.Basic
import TriggerDialect.Proofs.Reading.Equations

/-!
# Cutting does not look at offsets

The searches that cut a token list in parts ask for words and marks only. Each of them gives the
same parts when all offsets are moved.
-/

namespace TriggerDialect

variable (r : Relocation) (ts : List Token)

/-! ### Nesting -/

@[simp] theorem spanFrom_moved (stop : Option Piece → Piece → Bool) (n : Nesting)
    (previous : Option Piece) (ts : List Token) :
    spanFrom stop n previous (moved r ts) = moved r (spanFrom stop n previous ts) := by
  fun_induction spanFrom stop n previous ts with
  | case1 => rfl
  | case2 n previous t hstop => simp [spanFrom, hstop]
  | case3 n previous t hstop => simp [spanFrom, hstop]
  | case4 n previous t u rest hstop => simp [spanFrom, hstop]
  | case5 n previous t u rest hstop frame hcloses later ih =>
    simp only [moved_cons] at ih ⊢
    simp [spanFrom, hstop, hcloses, ih, later]
  | case6 n previous t u rest hstop hcloses later ih =>
    simp only [moved_cons] at ih ⊢
    simp [spanFrom, hstop, hcloses, ih, later]

@[simp] theorem spanAtDepth_moved (stop : Piece → Bool) (ts : List Token) :
    spanAtDepth stop (moved r ts) = moved r (spanAtDepth stop ts) :=
  spanFrom_moved r _ _ _ ts

@[simp] theorem spanClause_moved (words : List String) (ts : List Token) :
    spanClause words (moved r ts) = moved r (spanClause words ts) :=
  spanFrom_moved r _ _ _ ts

@[simp] theorem throughClosing_moved (depth : Nat) :
    throughClosing depth (moved r ts) = moved r (throughClosing depth ts) := by
  fun_induction throughClosing depth ts with
  | case1 => rfl
  | case2 depth t rest hopening ih =>
    simp only [moved_cons, throughClosing, toPiece_moved, hopening, if_true, ih]
    exact moved_map_option r fun _ => rfl
  | case3 t rest hopening hclosing => simp [throughClosing, hopening, hclosing]
  | case4 t rest hopening hclosing => simp [throughClosing, hopening, hclosing]
  | case5 t rest hopening hclosing depth ih =>
    simp only [moved_cons, throughClosing, toPiece_moved, hopening, hclosing, if_true, if_false,
      Bool.false_eq_true, ih]
    exact moved_map_option r fun _ => rfl
  | case6 depth t rest hopening hclosing ih =>
    simp only [moved_cons, throughClosing, toPiece_moved, hopening, hclosing, if_false,
      Bool.false_eq_true, ih]
    exact moved_map_option r fun _ => rfl

@[simp] theorem bracketGroup_moved : bracketGroup (moved r ts) = moved r (bracketGroup ts) := by
  cases ts with
  | nil => rfl
  | cons t rest =>
    simp only [moved_cons, bracketGroup, toPiece_moved, throughClosing_moved]
    split <;> rfl

@[simp] theorem splitCommas_moved : splitCommas (moved r ts) = moved r (splitCommas ts) := by
  fun_induction splitCommas ts with
  | case1 ts hrest =>
    have hspan : spanAtDepth (·.isPunct ',') ts = (_, []) := Prod.ext rfl hrest
    rw [splitCommas_eq, spanAtDepth_moved, hspan]
    rfl
  | case2 ts comma rest hrest hlt ih =>
    have hspan : spanAtDepth (·.isPunct ',') ts = (_, comma :: rest) := Prod.ext rfl hrest
    rw [splitCommas_eq, spanAtDepth_moved, hspan]
    simp [ih]

/-! ### Names -/

@[simp] theorem chain_moved : chain (moved r ts) = moved r (chain ts) := by
  fun_induction chain ts with
  | case1 dot segment rest hsegment later ih => simp [chain, hsegment, ih, later]
  | case2 dot segment rest hsegment => simp [chain, hsegment]
  | case3 ts hshort =>
    match ts with
    | [] => rfl
    | [t] => rfl
    | dot :: segment :: rest => exact absurd rfl (hshort dot segment rest)

namespace Grammar

instance : Placed Stuck := ⟨fun r stuck => { stuck with rest := moved r stuck.rest }⟩

@[simp] theorem moved_stuck (reason : String) (rest : List Token) :
    moved r (⟨reason, rest⟩ : Stuck) = ⟨reason, moved r rest⟩ := rfl

@[simp] theorem reason_moved (stuck : Stuck) : (moved r stuck).reason = stuck.reason := rfl

@[simp] theorem eatWord?_moved (word : String) :
    eatWord? word (moved r ts) = moved r (eatWord? word ts) := by
  cases ts with
  | nil => rfl
  | cons t rest =>
    simp only [moved_cons, eatWord?, toPiece_moved]
    split <;> rfl

@[simp] theorem eatMark?_moved (mark : Char) :
    eatMark? mark (moved r ts) = moved r (eatMark? mark ts) := by
  cases ts with
  | nil => rfl
  | cons t rest =>
    simp only [moved_cons, eatMark?, toPiece_moved]
    split <;> rfl

@[simp] theorem expectWord_moved (word : String) :
    expectWord word (moved r ts) = moved r (expectWord word ts) := by
  cases ts with
  | nil => rfl
  | cons t rest =>
    simp only [moved_cons, expectWord, toPiece_moved]
    split <;> rfl

@[simp] theorem name_moved : name (moved r ts) = moved r (name ts) := by
  cases ts with
  | nil => rfl
  | cons t rest =>
    simp only [moved_cons, name, toPiece_moved]
    split <;> rfl

theorem texts_moved : (moved r ts).map (fun t => t.text) = ts.map fun t => t.text := by
  simp [moved_list, Function.comp_def]

@[simp] theorem qualifiedName_moved : qualifiedName (moved r ts) = moved r (qualifiedName ts) := by
  simp only [qualifiedName, name_moved]
  cases name ts with
  | error stuck => rfl
  | ok found => simp [fst_moved, snd_moved, texts_moved]

@[simp] theorem moreNames_moved : moreNames (moved r ts) = moved r (moreNames ts) := by
  fun_induction moreNames ts with
  | case1 => rfl
  | case2 comma hcomma => simp [moreNames, hcomma]
  | case3 comma hcomma t rest hname stuck hmore ih => simp [moreNames, hcomma, hname, ih, hmore]
  | case4 comma hcomma t rest hname names rest' hmore ih =>
    simp [moreNames, hcomma, hname, ih, hmore]
  | case5 comma hcomma t rest hname => simp [moreNames, hcomma, hname]
  | case6 comma rest hcomma =>
    rw [moved_cons, moreNames.eq_def]
    simp [hcomma]

end Grammar

/-! ### Sections -/

instance : Placed StructureFault :=
  ⟨fun r fault => { fault with offset := r.target fault.offset }⟩

instance : Placed Sections where
  moved r s := {
    declarations := moved r s.declarations
    statements := moved r s.statements
    handlers := moved r s.handlers
    label := s.label
    trailing := moved r s.trailing
    warnings := moved r s.warnings }

namespace Sections

variable (n : Nesting) (declaring : Bool)

instance : Placed BodyEnd where
  moved r
    | .handlers after => .handlers (moved r after)
    | .closed after => .closed (moved r after)
    | .unclosed => .unclosed

@[simp] theorem moved_handlers (after : List Token) :
    moved r (BodyEnd.handlers after) = .handlers (moved r after) := rfl

@[simp] theorem moved_closed (after : List Token) :
    moved r (BodyEnd.closed after) = .closed (moved r after) := rfl

@[simp] theorem moved_unclosed : moved r BodyEnd.unclosed = .unclosed := rfl

@[simp] theorem splitBegin_moved (previous : Option Piece) :
    splitBegin previous (moved r ts) = moved r (splitBegin previous ts) := by
  induction ts generalizing previous with
  | nil => rfl
  | cons t rest ih =>
    simp only [moved_cons, splitBegin, toPiece_moved, ih]
    split
    · rfl
    · split
      · rfl
      · rcases splitBegin (some t.toPiece) rest with fault | _ | ⟨before, after⟩ <;> rfl

@[simp] theorem splitEnd_moved : splitEnd n (moved r ts) = moved r (splitEnd n ts) := by
  fun_induction splitEnd n ts with
  | case1 => rfl
  | case2 n t hend => simp [splitEnd, hend]
  | case3 n t hend => simp [splitEnd, hend]
  | case4 n t u rest frame hcloses hout => simp [splitEnd, hcloses, hout]
  | case5 n t u rest frame hcloses hout later ih =>
    simp [splitEnd, hcloses, hout, ih, later]
  | case6 n t u rest hcloses hend => simp [splitEnd, hcloses, hend]
  | case7 n t u rest hcloses hend later ih =>
    simp only [moved_cons] at ih
    simp [splitEnd, hcloses, hend, ih, later]

@[simp] theorem startsHandlers_moved (t : Token) :
    startsHandlers n declaring (moved r t) = startsHandlers n declaring t := rfl

@[simp] theorem declaringAfter_moved (t : Token) :
    declaringAfter n declaring (moved r t) = declaringAfter n declaring t := rfl

@[simp] theorem splitBody_moved :
    splitBody n declaring (moved r ts) = moved r (splitBody n declaring ts) := by
  fun_induction splitBody n declaring ts with
  | case1 => rfl
  | case2 n declaring t hstart => simp [splitBody, hstart]
  | case3 n declaring t hstart hend => simp [splitBody, hstart, hend]
  | case4 n declaring t hstart hend => simp [splitBody, hstart, hend]
  | case5 n declaring t u rest hstart => simp [splitBody, hstart]
  | case6 n declaring t u rest hstart frame hcloses hout =>
    simp [splitBody, hstart, hcloses, hout]
  | case7 n declaring t u rest hstart frame hcloses hout later ih =>
    simp [splitBody, hstart, hcloses, hout, ih, later]
  | case8 n declaring t u rest hstart hcloses hend => simp [splitBody, hstart, hcloses, hend]
  | case9 n declaring t u rest hstart hcloses hend later ih =>
    simp only [moved_cons] at ih
    simp [splitBody, hstart, hcloses, hend, ih, later]

@[simp] theorem takeLabel_moved : takeLabel (moved r ts) = moved r (takeLabel ts) := by
  cases ts with
  | nil => rfl
  | cons t rest =>
    simp only [moved_cons, takeLabel, toPiece_moved]
    split <;> rfl

theorem dropOne_moved {p : Token → Bool} (hp : ∀ t, p (moved r t) = p t) (ts : List Token) :
    dropOne p (moved r ts) = moved r (dropOne p ts) := by
  cases ts with
  | nil => rfl
  | cons t rest =>
    simp only [moved_cons, dropOne, hp]
    split <;> rfl

@[simp] theorem declarationsOf_moved :
    declarationsOf (moved r ts) = moved r (declarationsOf ts) := by
  cases ts with
  | nil => rfl
  | cons t rest =>
    simp only [moved_cons, declarationsOf, toPiece_moved]
    split <;> rfl

@[simp] theorem firstOffset_moved : firstOffset (moved r ts) = r.target (firstOffset ts) := by
  cases ts with
  | nil => exact r.target_zero.symm
  | cons t rest => rfl

@[simp] theorem lastOffset_moved : lastOffset (moved r ts) = r.target (lastOffset ts) := by
  simp only [lastOffset, moved_list, List.getLast?_map]
  cases ts.getLast? with
  | none => exact r.target_zero.symm
  | some t => rfl

theorem find?_moved {p : Token → Bool} (hp : ∀ t, p (moved r t) = p t) (ts : List Token) :
    (moved r ts).find? p = moved r (ts.find? p) := by
  have hcomp : p ∘ moved r = p := funext hp
  rw [moved_list, List.find?_map, hcomp]
  rfl

theorem assemble_moved (ts before statements : List Token) (handlers after : Option (List Token)) :
    assemble (moved r ts) (moved r before) (moved r statements) (moved r handlers)
      (moved r after) = moved r (assemble ts before statements handlers after) := by
  have hafter : (moved r after).getD [] = moved r (after.getD []) := by cases after <;> rfl
  have hsome : (moved r after).isSome = after.isSome := by cases after <;> rfl
  simp only [assemble, hafter, hsome, takeLabel_moved, fst_moved, snd_moved]
  rw [dropOne_moved r (fun _ => rfl), dropOne_moved r (fun _ => rfl), find?_moved r fun _ => rfl]
  cases (dropOne _ _).find? _ with
  | some t => rfl
  | none =>
    simp only [moved_none, declarationsOf_moved, lastOffset_moved, moved_optionString]
    cases after <;> rfl

@[simp] theorem split_moved : split (moved r ts) = moved r (split ts) := by
  simp only [split, splitBegin_moved]
  rcases splitBegin none ts with fault | _ | ⟨before, rest⟩
  · rfl
  · simp only [moved_ok, moved_none, firstOffset_moved]
    rfl
  · simp only [moved_ok, moved_some, moved_pair, splitBody_moved]
    rcases splitBody .outerBlock false rest with ⟨statements, after | after | _⟩
    · simp only [moved_pair, moved_handlers, splitEnd_moved, fst_moved, snd_moved]
      exact assemble_moved r ts before statements (some _) _
    · exact assemble_moved r ts before statements none (some after)
    · exact assemble_moved r ts before statements none none

end Sections

end TriggerDialect
