import TriggerDialect.Proofs.Json.Codec
import TriggerDialect.Tree.Decoding

/-!
# Codecs of the parts of trees

Each part of a tree is read back from what is written for it, and the offsets of a part that was
read are words. Arms, handlers and forms hold JSON where their inner statements will stand.
-/

namespace TriggerDialect

open Json List Option

variable {β γ : Type} (reading : Reading) {form : Form (List Json)} {j : Json} {kind : String}
  {s : Simple}

/-! ### Offsets -/

/-- The offset of a text. -/
def Fragment.offsets (f : Fragment) : List Nat := [f.offset]

/-- The offsets in an initializer. -/
def Initializer.offsets : Initializer → List Nat
  | .string _ => []
  | .expression text => text.offsets

/-- The offsets in a variable. -/
def Variable.offsets (v : Variable) : List Nat :=
  v.default.toList.flatMap Initializer.offsets ++ [v.offset]

/-- The offsets in a constant. -/
def Constant.offsets (c : Constant) : List Nat := c.value.offsets ++ [c.offset]

/-- The offset of an exception name. -/
def ExceptionName.offsets (e : ExceptionName) : List Nat := [e.offset]

/-- The offsets in a cursor. -/
def Cursor.offsets (c : Cursor) : List Nat := c.query.offsets ++ [c.offset]

/-- The offsets in the declarations of a block. -/
def Declarations.offsets (d : Declarations) : List Nat :=
  d.vars.flatMap Variable.offsets ++ d.constants.flatMap Constant.offsets ++
    d.exceptions.flatMap ExceptionName.offsets ++ d.cursors.flatMap Cursor.offsets ++
    d.raw.flatMap Fragment.offsets

/-- The offsets in a header. -/
def Header.offsets (h : Header) : List Nat := h.condition.toList.flatMap Fragment.offsets

/-- The offsets in the values of an `INSERT`. -/
def InsertTarget.offsets (t : InsertTarget) : List Nat := t.values.flatMap Fragment.offsets

/-- The offsets in a simple statement. -/
def Simple.offsets : Simple → List Nat
  | .select sql | .update sql | .delete sql | .executeImmediate sql => sql.offsets
  | .insert sql target => sql.offsets ++ target.toList.flatMap InsertTarget.offsets
  | .assignment target value => target.offsets ++ value.offsets
  | .exitLoop _ condition | .continueLoop _ condition =>
    condition.toList.flatMap Fragment.offsets
  | .returnValue value => value.toList.flatMap Fragment.offsets
  | .call _ arguments offset => arguments.flatMap Fragment.offsets ++ [offset]
  | .raise _ offset => [offset]
  | .cursor _ text | .raw text => text.offsets
  | .label _ | .null => []

/-- The offsets in an arm outside its body. -/
def Arm.offsets (arm : Arm β) : List Nat := arm.condition.offsets

/-- The offset of a handler. -/
def Handler.offsets (h : Handler β) : List Nat := [h.offset]

/-- The offsets in a statement outside its inner lists. -/
def Form.offsets : Form β → List Nat
  | .simple s => s.offsets
  | .conditional first others _ => first.offsets ++ others.flatMap Arm.offsets
  | .selection selector arms _ =>
    selector.toList.flatMap Fragment.offsets ++ arms.flatMap Arm.offsets
  | .queryLoop _ query _ => query.offsets
  | .rangeLoop _ _ lower upper _ => lower.offsets ++ upper.offsets
  | .whileLoop condition _ => condition.offsets
  | .endlessLoop _ => []
  | .block b =>
    b.declarations.toList.flatMap Declarations.offsets ++ b.handlers.flatMap Handler.offsets ++
      b.unparsed.flatMap Fragment.offsets

/-! ### Declarations and headers -/

theorem Fragment.codec : Codec Fragment.toJson Fragment.ofJson? Fragment.offsets where
  decode_encode f h := by
    simp only [offsets, areWords_cons, areWords_nil, and_true] at h
    simp [toJson, ofJson?, record?, lookup_cons, str?, word?, h]
  areWords j f h := by
    simp only [ofJson?, step_eq_some, return_eq_some] at h
    obtain ⟨j, -, text, -, offset, hoffset, rfl⟩ := h
    exact codec_word.areWords_require hoffset

theorem Anchor.codec :
    Codec (fun a => .str (Anchor.jsonName a))
      (oneOf reading Anchor.jsonName [.ofColumn, .ofRow]) fun _ => [] :=
  codec_oneOf reading fun a => by cases a <;> rfl

theorem DeclaredType.codec :
    Codec DeclaredType.toJson (DeclaredType.ofJson? reading) fun _ => [] where
  decode_encode t _ := by
    simp [toJson, ofJson?, record?, lookup_cons, lookup_append, str?, codec_str.fallbackOf_listed,
      (Anchor.codec reading).maybeOf_map rfl]
  areWords _ _ _ := areWords_nil

theorem Initializer.codec :
    Codec Initializer.toJson (Initializer.ofJson? reading) Initializer.offsets where
  decode_encode i h := by
    cases i with
    | string value => simp [toJson, ofJson?, record?, lookup_cons, str?, choiceName?]
    | expression text =>
      have htext := Fragment.codec.decode_encode text h
      simp [toJson, ofJson?, record?, lookup_cons, choiceName?, htext]
  areWords j i h := by
    simp only [ofJson?, step_eq_some] at h
    obtain ⟨j, -, kind, -, h⟩ := h
    split at h
    next =>
      simp only [step_eq_some, return_eq_some] at h
      obtain ⟨value, -, rfl⟩ := h
      exact areWords_nil
    next =>
      simp only [step_eq_some, return_eq_some] at h
      obtain ⟨text, htext, rfl⟩ := h
      exact Fragment.codec.areWords_require htext
    next => cases h

theorem Variable.codec : Codec Variable.toJson (Variable.ofJson? reading) Variable.offsets where
  decode_encode v h := by
    have htype := (DeclaredType.codec reading).decode_encode v.type areWords_nil
    simp only [offsets, areWords_append, areWords_flatMap, mem_toList, areWords_cons, areWords_nil,
      and_true] at h
    simp [toJson, ofJson?, record?, lookup_cons, lookup_append, str?, bool?, word?, htype,
      (Initializer.codec reading).maybeOf_map rfl h.1, h.2]
  areWords j v h := by
    simp only [ofJson?, step_eq_some, return_eq_some] at h
    obtain ⟨j, -, name, -, type, -, default, hdefault, notNull, -, offset, hoffset, rfl⟩ := h
    have hinner := (Initializer.codec reading).areWords_maybe hdefault
    simpa [offsets] using ⟨hinner, by simpa using codec_word.areWords_require hoffset⟩

theorem Constant.codec : Codec Constant.toJson (Constant.ofJson? reading) Constant.offsets where
  decode_encode c h := by
    have htype := (DeclaredType.codec reading).decode_encode c.type areWords_nil
    simp only [offsets, areWords_append, areWords_cons, areWords_nil, and_true] at h
    have hvalue := (Initializer.codec reading).decode_encode c.value h.1
    simp [toJson, ofJson?, record?, lookup_cons, str?, word?, htype, hvalue, h.2]
  areWords j c h := by
    simp only [ofJson?, step_eq_some, return_eq_some] at h
    obtain ⟨j, -, name, -, type, -, value, hvalue, offset, hoffset, rfl⟩ := h
    exact areWords_append.2 ⟨(Initializer.codec reading).areWords_require hvalue,
      codec_word.areWords_require hoffset⟩

theorem ExceptionName.codec :
    Codec ExceptionName.toJson ExceptionName.ofJson? ExceptionName.offsets where
  decode_encode e h := by
    simp only [offsets, areWords_cons, areWords_nil, and_true] at h
    simp [toJson, ofJson?, record?, lookup_cons, str?, word?, h]
  areWords j e h := by
    simp only [ofJson?, step_eq_some, return_eq_some] at h
    obtain ⟨j, -, name, -, offset, hoffset, rfl⟩ := h
    exact codec_word.areWords_require hoffset

theorem CursorParameter.codec :
    Codec CursorParameter.toJson (CursorParameter.ofJson? reading) fun _ => [] where
  decode_encode p _ := by
    have htype := (DeclaredType.codec reading).decode_encode p.type areWords_nil
    simp [toJson, ofJson?, record?, lookup_cons, str?, htype]
  areWords _ _ _ := areWords_nil

theorem Cursor.codec : Codec Cursor.toJson (Cursor.ofJson? reading) Cursor.offsets where
  decode_encode c h := by
    simp only [offsets, areWords_append, areWords_cons, areWords_nil, and_true] at h
    have hquery := Fragment.codec.decode_encode c.query h.1
    simp [toJson, ofJson?, record?, lookup_cons, lookup_append, str?, word?,
      (CursorParameter.codec reading).fallbackOf_listed, hquery, h.2]
  areWords j c h := by
    simp only [ofJson?, step_eq_some, return_eq_some] at h
    obtain ⟨j, -, name, -, parameters, -, query, hquery, offset, hoffset, rfl⟩ := h
    exact areWords_append.2 ⟨Fragment.codec.areWords_require hquery,
      codec_word.areWords_require hoffset⟩

theorem Declarations.codec_raw :
    Codec (fun f => .obj [("text", Fragment.toJson f)]) rawOfJson? Fragment.offsets where
  decode_encode f h := by
    have htext := Fragment.codec.decode_encode f h
    simp [rawOfJson?, record?, htext]
  areWords j f h := by
    simp only [rawOfJson?, step_eq_some] at h
    obtain ⟨j, -, htext⟩ := h
    exact Fragment.codec.areWords_require htext

theorem Declarations.codec :
    Codec Declarations.toJson (Declarations.ofJson? reading) Declarations.offsets where
  decode_encode d h := by
    simp only [offsets, areWords_append, areWords_flatMap] at h
    obtain ⟨⟨⟨⟨hvars, hconstants⟩, hexceptions⟩, hcursors⟩, hraw⟩ := h
    simp [toJson, ofJson?, record?, lookup_cons, lookup_append,
      (Variable.codec reading).mapM_map hvars, (Constant.codec reading).mapM_map hconstants,
      ExceptionName.codec.mapM_map hexceptions, (Cursor.codec reading).fallbackOf_listed hcursors,
      codec_raw.fallbackOf_listed hraw]
  areWords j d h := by
    simp only [ofJson?, step_eq_some, return_eq_some] at h
    obtain ⟨j, -, vars, hvars, constants, hconstants, exceptions, hexceptions, cursors, hcursors,
      raw, hraw, rfl⟩ := h
    simp only [offsets, areWords_append, areWords_flatMap]
    exact ⟨⟨⟨⟨(Variable.codec reading).areWords_fallback hvars,
      (Constant.codec reading).areWords_fallback hconstants⟩,
      ExceptionName.codec.areWords_fallback hexceptions⟩,
      (Cursor.codec reading).areWords_fallback hcursors⟩, codec_raw.areWords_fallback hraw⟩

theorem EventKind.codec :
    Codec (fun k => .str (EventKind.jsonName k))
      (oneOf .strict EventKind.jsonName [.insert, .update, .delete]) fun _ => [] :=
  codec_oneOf .strict fun k => by cases k <;> rfl

theorem Event.codec : Codec Event.toJson Event.ofJson? fun _ => [] where
  decode_encode e _ := by
    have hkind := EventKind.codec.decode_encode e.kind areWords_nil
    simp [toJson, ofJson?, record?, lookup_cons, codec_str.fallbackOf_listed, hkind]
  areWords _ _ _ := areWords_nil

theorem Timing.codec :
    Codec (fun t => .str (Timing.jsonName t))
      (oneOf .strict Timing.jsonName [.before, .after, .insteadOf]) fun _ => [] :=
  codec_oneOf .strict fun t => by cases t <;> rfl

theorem Header.codec : Codec Header.toJson Header.ofJson? Header.offsets where
  decode_encode h hwords := by
    simp only [offsets, areWords_flatMap, mem_toList] at hwords
    have htiming := Timing.codec.decode_encode h.timing areWords_nil
    have hevents := Event.codec.mapM_map fun e (_ : e ∈ h.events) => areWords_nil
    simp [toJson, ofJson?, record?, lookup_cons, lookup_append, str?, bool?, htiming, hevents,
      codec_str.maybeOf_map rfl, Fragment.codec.maybeOf_map rfl hwords]
  areWords j h hread := by
    simp only [ofJson?, step_eq_some, return_eq_some] at hread
    obtain ⟨j, -, name, -, orReplace, -, timing, -, events, -, table, -, forEachRow, -, newAlias, -,
      oldAlias, -, condition, hcondition, rfl⟩ := hread
    simpa [offsets] using Fragment.codec.areWords_maybe hcondition

/-! ### Statements -/

theorem InsertTarget.codec :
    Codec InsertTarget.toJson InsertTarget.ofJson? InsertTarget.offsets where
  decode_encode t h := by
    have hcolumns := codec_str.mapM_map fun s (_ : s ∈ t.columns) => areWords_nil
    have hvalues := Fragment.codec.mapM_map (areWords_flatMap.1 h)
    simp [toJson, ofJson?, record?, lookup_cons, str?, strings, hcolumns, hvalues]
  areWords j t h := by
    simp only [ofJson?, step_eq_some, return_eq_some] at h
    obtain ⟨j, -, table, -, columns, -, values, hvalues, rfl⟩ := h
    exact Fragment.codec.list.areWords_require hvalues

theorem CursorAction.codec :
    Codec (fun a => .str (CursorAction.jsonName a)) CursorAction.ofJson? fun _ => [] :=
  codec_oneOf .lax fun a => by cases a <;> rfl

theorem Simple.ofJson?_toJson (h : AreWords s.offsets) :
    Simple.ofJson? s.kindName (.obj (("kind", .str s.kindName) :: s.fields)) = some s := by
  cases s with
  | select sql | update sql | delete sql | executeImmediate sql | raw sql =>
    have hsql := Fragment.codec.decode_encode sql h
    simp [ofJson?, kindName, fields, lookup_cons, hsql]
  | insert sql target =>
    simp only [offsets, areWords_append, areWords_flatMap, mem_toList] at h
    have hsql := Fragment.codec.decode_encode sql h.1
    simp [ofJson?, kindName, fields, lookup_cons, hsql, InsertTarget.codec.maybeOf_map rfl h.2]
  | assignment target value =>
    simp only [offsets, areWords_append] at h
    have htarget := Fragment.codec.decode_encode target h.1
    have hvalue := Fragment.codec.decode_encode value h.2
    simp [ofJson?, kindName, fields, lookup_cons, htarget, hvalue]
  | exitLoop loop condition | continueLoop loop condition =>
    simp only [offsets, areWords_flatMap, mem_toList] at h
    simp [ofJson?, kindName, fields, exitFields, lookup_cons, lookup_append,
      codec_str.maybeOf_map rfl, Fragment.codec.maybeOf_map rfl h]
  | returnValue value =>
    simp only [offsets, areWords_flatMap, mem_toList] at h
    simp [ofJson?, kindName, fields, lookup_cons, Fragment.codec.maybeOf_map rfl h]
  | call name arguments offset =>
    simp only [offsets, areWords_append, areWords_flatMap, areWords_cons, areWords_nil,
      and_true] at h
    simp [ofJson?, kindName, fields, lookup_cons, lookup_append, str?, word?,
      Fragment.codec.fallbackOf_listed h.1, h.2]
  | raise name offset =>
    simp only [offsets, areWords_cons, areWords_nil, and_true] at h
    simp [ofJson?, kindName, fields, lookup_cons, lookup_append, word?, codec_str.maybeOf_map rfl, h]
  | cursor action text =>
    have haction := CursorAction.codec.decode_encode action areWords_nil
    have htext := Fragment.codec.decode_encode text h
    simp [ofJson?, kindName, fields, lookup_cons, haction, htext]
  | label name => simp [ofJson?, kindName, fields, lookup_cons, str?]
  | null => simp [ofJson?, kindName]

theorem Simple.areWords_ofJson? (h : Simple.ofJson? kind j = some s) : AreWords s.offsets := by
  unfold ofJson? at h
  split at h <;> simp only [step_eq_some, return_eq_some, reduceCtorEq] at h
  case h_1 | h_3 | h_4 | h_11 | h_15 =>
    obtain ⟨sql, hsql, rfl⟩ := h
    exact Fragment.codec.areWords_require hsql
  case h_2 =>
    obtain ⟨sql, hsql, target, htarget, rfl⟩ := h
    simpa [offsets] using ⟨Fragment.codec.areWords_require hsql,
      InsertTarget.codec.areWords_maybe htarget⟩
  case h_5 =>
    obtain ⟨target, htarget, value, hvalue, rfl⟩ := h
    exact areWords_append.2 ⟨Fragment.codec.areWords_require htarget,
      Fragment.codec.areWords_require hvalue⟩
  case h_6 | h_7 =>
    obtain ⟨loop, -, condition, hcondition, rfl⟩ := h
    simpa [offsets] using Fragment.codec.areWords_maybe hcondition
  case h_8 =>
    obtain ⟨value, hvalue, rfl⟩ := h
    simpa [offsets] using Fragment.codec.areWords_maybe hvalue
  case h_9 =>
    obtain ⟨name, -, arguments, harguments, offset, hoffset, rfl⟩ := h
    exact areWords_append.2 ⟨areWords_flatMap.2 (Fragment.codec.areWords_fallback harguments),
      codec_word.areWords_require hoffset⟩
  case h_10 =>
    obtain ⟨name, -, offset, hoffset, rfl⟩ := h
    exact codec_word.areWords_require hoffset
  case h_12 =>
    obtain ⟨action, -, text, htext, rfl⟩ := h
    exact Fragment.codec.areWords_require htext
  case h_13 =>
    obtain ⟨name, -, rfl⟩ := h
    exact areWords_nil
  case h_14 =>
    subst h
    exact areWords_nil

theorem Arm.codec : Codec Arm.toJson Arm.ofJson? Arm.offsets where
  decode_encode arm h := by
    have hcondition := Fragment.codec.decode_encode arm.condition h
    simp [toJson, ofJson?, record?, lookup_cons, items?, hcondition]
  areWords j arm h := by
    simp only [ofJson?, step_eq_some, return_eq_some] at h
    obtain ⟨j, -, condition, hcondition, body, -, rfl⟩ := h
    exact Fragment.codec.areWords_require hcondition

theorem Handler.codec : Codec Handler.toJson Handler.ofJson? Handler.offsets where
  decode_encode handler h := by
    simp only [offsets, areWords_cons, areWords_nil, and_true] at h
    simp [toJson, ofJson?, record?, lookup_cons, lookup_append, str?, items?, word?,
      codec_str.fallbackOf_listed, h]
  areWords j handler h := by
    simp only [ofJson?, step_eq_some, return_eq_some] at h
    obtain ⟨j, -, name, -, moreNames, -, body, -, offset, hoffset, rfl⟩ := h
    exact codec_word.areWords_require hoffset

/-- A list of values that are taken over as they are. -/
theorem codec_items : Codec .arr items? fun _ => [] where
  decode_encode _ _ := rfl
  areWords _ _ _ := areWords_nil

theorem Form.ofKind?_simple (s : Simple) (j : Json) :
    ofKind? s.kindName j = (Simple.ofJson? s.kindName j).map .simple := by
  cases s with
  | null => rfl
  | _ => exact map_eq_bind.symm

theorem Form.ofJson?_toJson (h : AreWords form.offsets) :
    Form.ofJson? reading form.toJson = some form := by
  have hkind : Form.ofJson? reading form.toJson = ofKind? form.kindName form.toJson := by
    simp [Form.ofJson?, toJson, kindOfJson?]
  rw [hkind, toJson]
  cases form with
  | simple s =>
    rw [kindName, fields, ofKind?_simple, Simple.ofJson?_toJson h]
    rfl
  | conditional first others otherwise =>
    simp only [offsets, areWords_append, areWords_flatMap] at h
    have hfirst := Fragment.codec.decode_encode first.condition h.1
    simp [ofKind?, kindName, fields, lookup_cons, lookup_append, items?, hfirst,
      Arm.codec.fallbackOf_listed h.2, codec_items.maybeOf_map rfl]
  | selection selector arms otherwise =>
    simp only [offsets, areWords_append, areWords_flatMap, mem_toList] at h
    simp [ofKind?, kindName, fields, lookup_cons, lookup_append, Fragment.codec.maybeOf_map rfl h.1,
      Arm.codec.mapM_map h.2, codec_items.maybeOf_map rfl]
  | queryLoop name query body =>
    have hquery := Fragment.codec.decode_encode query h
    simp [ofKind?, kindName, fields, lookup_cons, str?, items?, hquery]
  | rangeLoop name reverse lower upper body =>
    simp only [offsets, areWords_append] at h
    have hlower := Fragment.codec.decode_encode lower h.1
    have hupper := Fragment.codec.decode_encode upper h.2
    simp [ofKind?, kindName, fields, lookup_cons, str?, bool?, items?, hlower, hupper]
  | whileLoop condition body =>
    have hcondition := Fragment.codec.decode_encode condition h
    simp [ofKind?, kindName, fields, lookup_cons, items?, hcondition]
  | endlessLoop body => simp [ofKind?, kindName, fields, lookup_cons, items?]
  | block b =>
    simp only [offsets, areWords_append, areWords_flatMap, mem_toList] at h
    obtain ⟨⟨hdeclarations, hhandlers⟩, hunparsed⟩ := h
    simp [ofKind?, kindName, fields, lookup_cons, lookup_append, items?,
      (Declarations.codec .lax).maybeOf_map rfl hdeclarations,
      Handler.codec.fallbackOf_listed hhandlers, Fragment.codec.fallbackOf_listed hunparsed]

theorem Form.areWords_ofKind? (h : ofKind? kind j = some form) : AreWords form.offsets := by
  unfold ofKind? at h
  split at h <;> simp only [step_eq_some, return_eq_some] at h
  case h_1 =>
    obtain ⟨condition, hcondition, body, -, others, hothers, otherwise, -, rfl⟩ := h
    exact areWords_append.2 ⟨Fragment.codec.areWords_require hcondition,
      areWords_flatMap.2 (Arm.codec.areWords_fallback hothers)⟩
  case h_2 =>
    obtain ⟨selector, hselector, arms, harms, otherwise, -, rfl⟩ := h
    simpa [offsets] using ⟨Fragment.codec.areWords_maybe hselector,
      areWords_flatMap.1 (Arm.codec.list.areWords_require harms)⟩
  case h_3 =>
    obtain ⟨name, -, query, hquery, body, -, rfl⟩ := h
    exact Fragment.codec.areWords_require hquery
  case h_4 =>
    obtain ⟨name, -, reverse, -, lower, hlower, upper, hupper, body, -, rfl⟩ := h
    exact areWords_append.2 ⟨Fragment.codec.areWords_require hlower,
      Fragment.codec.areWords_require hupper⟩
  case h_5 =>
    obtain ⟨condition, hcondition, body, -, rfl⟩ := h
    exact Fragment.codec.areWords_require hcondition
  case h_6 =>
    obtain ⟨body, -, rfl⟩ := h
    exact areWords_nil
  case h_7 =>
    obtain ⟨declarations, hdeclarations, body, -, handlers, hhandlers, unparsed, hunparsed, rfl⟩ :=
      h
    simpa [offsets, and_assoc] using ⟨(Declarations.codec .lax).areWords_maybe hdeclarations,
      Handler.codec.areWords_fallback hhandlers, Fragment.codec.areWords_fallback hunparsed⟩
  case h_8 =>
    obtain ⟨s, hs, rfl⟩ := h
    exact Simple.areWords_ofJson? hs

theorem Form.areWords_ofJson? {reading : Reading} (h : Form.ofJson? reading j = some form) :
    AreWords form.offsets := by
  unfold ofJson? at h
  split at h <;> simp only [step_eq_some, bind_eq_some_iff] at h
  next =>
    obtain ⟨kind, -, names, -, j, -, h⟩ := h
    exact areWords_ofKind? h
  next =>
    obtain ⟨kind, -, h⟩ := h
    exact areWords_ofKind? h

end TriggerDialect
