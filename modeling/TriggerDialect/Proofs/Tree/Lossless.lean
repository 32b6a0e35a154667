import TriggerDialect.Proofs.Tree.Codec

/-!
# The text of a tree holds the whole tree

Statements are read back level by level: their forms first, then the statements inside. Main
statement: a trigger is read back from its value, and from its text by any reader that gives the
value back, exactly if its offsets are words, and that is so for every trigger that was read
(`Trigger.read_jsonText`).
-/

namespace TriggerDialect

open Json List Option

variable {α β : Type} {fields : List (String × Json)} {j : Json} {items : List Json} {as : List α}

/-! ### Inner lists -/

theorem Form.offsets_map (f : α → β) (form : Form α) : (form.map f).offsets = form.offsets := by
  have harm : (fun arm => (Arm.map f arm).offsets) = Arm.offsets := rfl
  have hhandler : (fun h => (Handler.map f h).offsets) = Handler.offsets := rfl
  cases form with
  | conditional first others otherwise =>
    simp only [map, offsets, flatMap_map, harm]
    rfl
  | selection selector arms otherwise => simp only [map, offsets, flatMap_map, harm]
  | block b => simp only [map, offsets, flatMap_map, hhandler]
  | _ => rfl

theorem mapM_eq_some_iff_map {f : α → Option β} {g : β → α} (h : ∀ a b, f a = some b ↔ a = g b)
    {bs : List β} : as.mapM f = some bs ↔ as = bs.map g := by
  induction as generalizing bs with
  | nil => cases bs <;> simp
  | cons a as ih =>
    cases bs with
    | nil => simp [bind_eq_some_iff]
    | cons b bs =>
      simp only [mapM_cons, step_eq_some, return_eq_some, h, ih, map_cons,
        cons.injEq]
      constructor
      · rintro ⟨b, rfl, bs, rfl, rfl, rfl⟩
        exact ⟨rfl, rfl⟩
      · rintro ⟨rfl, rfl⟩
        exact ⟨b, rfl, bs, rfl, rfl, rfl⟩

theorem Arm.sequence_eq_some_iff (arm : Arm (Option β)) (all : Arm β) :
    arm.body.map (Arm.mk arm.condition) = some all ↔ arm = all.map some := by
  obtain ⟨condition, body⟩ := arm
  cases body <;> cases all <;> simp [Arm.map]

theorem Handler.sequence_eq_some_iff (h : Handler (Option β)) (all : Handler β) :
    (h.body.map fun body => ⟨h.name, h.moreNames, body, h.offset⟩) = some all ↔
      h = all.map some := by
  obtain ⟨name, moreNames, body, offset⟩ := h
  cases body <;> cases all <;> simp [Handler.map]

theorem mapM_id_eq_some_iff {body : Option (Option β)} {all : Option β} :
    body.mapM id = some all ↔ body = all.map some := by
  cases body with
  | none => cases all <;> simp
  | some body => cases body <;> cases all <;> simp

/-- All inner lists are there exactly if the form is one of lists that are there. -/
theorem Form.sequence_eq_some_iff {form : Form (Option β)} {all : Form β} :
    form.sequence = some all ↔ form = all.map some := by
  have harms {arms : List (Arm (Option β))} {all : List (Arm β)} :
      (arms.mapM fun arm => arm.body.map (Arm.mk arm.condition)) = some all ↔
        arms = all.map (Arm.map some) :=
    mapM_eq_some_iff_map Arm.sequence_eq_some_iff
  constructor
  · intro h
    cases form with
    | simple s => cases h; rfl
    | conditional first others otherwise =>
      simp only [sequence, step_eq_some, return_eq_some, harms,
        mapM_id_eq_some_iff] at h
      obtain ⟨body, hbody, others, rfl, otherwise, rfl, rfl⟩ := h
      simp [map, Arm.map, ← hbody]
    | selection selector arms otherwise =>
      simp only [sequence, step_eq_some, return_eq_some, harms,
        mapM_id_eq_some_iff] at h
      obtain ⟨arms, rfl, otherwise, rfl, rfl⟩ := h
      rfl
    | queryLoop | rangeLoop | whileLoop | endlessLoop =>
      obtain ⟨body, rfl, rfl⟩ := map_eq_some_iff.1 h
      rfl
    | block b =>
      simp only [sequence, step_eq_some, return_eq_some,
        mapM_eq_some_iff_map Handler.sequence_eq_some_iff] at h
      obtain ⟨body, hbody, handlers, hhandlers, rfl⟩ := h
      simp [map, ← hbody, ← hhandlers]
  · rintro rfl
    cases all with
    | conditional first others otherwise =>
      rw [map, sequence, harms.2 rfl, mapM_id_eq_some_iff.2 rfl]
      rfl
    | selection selector arms otherwise =>
      rw [map, sequence, harms.2 rfl, mapM_id_eq_some_iff.2 rfl]
      rfl
    | block b =>
      rw [map, sequence, (mapM_eq_some_iff_map Handler.sequence_eq_some_iff).2 rfl]
      rfl
    | _ => rfl

/-! ### Depth -/

theorem Json.depth_lt_arr (h : j ∈ items) : j.depth < (Json.arr items).depth := by
  have hle : j.depth ≤ depthItems items := by
    induction items with
    | nil => cases h
    | cons i items ih =>
      rw [depthItems]
      rcases mem_cons.1 h with rfl | h
      · exact Nat.le_max_left ..
      · exact Nat.le_trans (ih h) (Nat.le_max_right ..)
  rw [depth]
  omega

theorem Json.depth_lt_obj {field : String × Json} (h : field ∈ fields) :
    field.2.depth < (Json.obj fields).depth := by
  have hle : field.2.depth ≤ depthFields fields := by
    induction fields with
    | nil => cases h
    | cons other fields ih =>
      rw [depthFields]
      rcases mem_cons.1 h with rfl | h
      · exact Nat.le_max_left ..
      · exact Nat.le_trans (ih h) (Nat.le_max_right ..)
  rw [depth]
  omega

/-- An item of a list in a field is less deep than the object. -/
theorem Json.depth_lt_field (name : String) (hfield : (name, .arr items) ∈ fields) (hj : j ∈ items)
    : j.depth < (Json.obj fields).depth :=
  Nat.lt_trans (depth_lt_arr hj) (depth_lt_obj hfield)

theorem Json.mem_optional {a : α} (name : String) (encode : α → Json) :
    (name, encode a) ∈ Json.optional name encode (some a) :=
  mem_singleton_self _

theorem Json.mem_unlessEmpty {a : α} (h : a ∈ as) (name : String) (encode : α → Json) :
    (name, .arr (as.map encode)) ∈ unlessEmpty name encode as := by
  cases as with
  | nil => cases h
  | cons => exact mem_singleton_self _

theorem Arm.depth_lt {arm : Arm (List Json)} (hj : j ∈ arm.body) : j.depth < arm.toJson.depth :=
  depth_lt_field "body" (by simp) hj

theorem Handler.depth_lt {h : Handler (List Json)} (hj : j ∈ h.body) : j.depth < h.toJson.depth :=
  depth_lt_field "body" (by simp) hj

/-- Inner values are less deep than the form around them. -/
theorem Form.depth_lt {form : Form (List Json)} {body : List Json} (hbody : body ∈ form.bodies)
    (hj : j ∈ body) : j.depth < form.toJson.depth := by
  cases form with
  | simple s => cases hbody
  | conditional first others otherwise =>
    simp only [bodies, cons_append, mem_cons, mem_append, List.mem_map, mem_toList] at hbody
    rcases hbody with rfl | ⟨arm, harm, rfl⟩ | rfl
    · exact depth_lt_field "then_branch" (by simp [fields]) hj
    · have hfield := mem_unlessEmpty harm "elsif_branches" Arm.toJson
      exact Nat.lt_trans (Arm.depth_lt hj)
        (depth_lt_field "elsif_branches" (by simp [fields, hfield]) (mem_map_of_mem harm))
    · exact depth_lt_field "else_branch" (by simp [fields, mem_optional]) hj
  | selection selector arms otherwise =>
    simp only [bodies, mem_append, List.mem_map, mem_toList] at hbody
    rcases hbody with ⟨arm, harm, rfl⟩ | rfl
    · exact Nat.lt_trans (Arm.depth_lt hj)
        (depth_lt_field "when_clauses" (by simp [fields]) (mem_map_of_mem harm))
    · exact depth_lt_field "else_branch" (by simp [fields, mem_optional]) hj
  | queryLoop | rangeLoop | whileLoop | endlessLoop =>
    obtain rfl := mem_singleton.1 hbody
    exact depth_lt_field "body" (by simp [fields]) hj
  | block b =>
    simp only [bodies, mem_cons, List.mem_map] at hbody
    rcases hbody with rfl | ⟨handler, hhandler, rfl⟩
    · exact depth_lt_field "body" (by simp [fields]) hj
    · have hfield := mem_unlessEmpty hhandler "handlers" Handler.toJson
      exact Nat.lt_trans (Handler.depth_lt hj)
        (depth_lt_field "handlers" (by simp [fields, hfield]) (mem_map_of_mem hhandler))

/-! ### Statements -/

namespace Statement

variable {s : Statement} {levels : Nat}

/-- The offsets in a statement and in all statements inside it. -/
def offsets : Statement → List Nat :=
  fold fun form => form.offsets ++ form.bodies.flatMap flatten

theorem offsets_node (form : Form (List Statement)) :
    offsets (.node form) = form.offsets ++ form.bodies.flatMap (·.flatMap offsets) := by
  rw [offsets, fold_node, Form.offsets_map, Form.bodies_map, flatMap_map]
  rfl

theorem areWords_node {form : Form (List Statement)} :
    AreWords (offsets (.node form)) ↔
      AreWords form.offsets ∧ ∀ body ∈ form.bodies, ∀ s ∈ body, AreWords s.offsets := by
  simp [offsets_node]

theorem toJson_node (form : Form (List Statement)) :
    toJson (.node form) = (form.map (map toJson)).toJson :=
  fold_node Form.toJson form

/-- A statement is read back with as many levels as it is deep. -/
theorem ofJsonWithin?_toJson (h : AreWords s.offsets) (hlevels : s.toJson.depth < levels)
    (reading : Reading) : ofJsonWithin? levels reading s.toJson = some s := by
  induction s using Statement.induction generalizing levels reading with
  | node form ih =>
    obtain ⟨levels, rfl⟩ := Nat.exists_eq_add_one.2 (Nat.zero_lt_of_lt hlevels)
    rw [areWords_node] at h
    rw [toJson_node] at hlevels ⊢
    have hform := Form.ofJson?_toJson reading ((Form.offsets_map (map toJson) form).symm ▸ h.1)
    have hinner : (form.map (map toJson)).map
        (fun body => body.mapM (ofJsonWithin? levels .lax)) = form.map some := by
      rw [Form.map_map]
      refine Form.map_congr fun body hbody => mapM_map_eq_some fun s hs => ?_
      have hmem : body.map toJson ∈ (form.map (map toJson)).bodies := by
        rw [Form.bodies_map]
        exact mem_map_of_mem hbody
      have hdepth := Form.depth_lt hmem (mem_map_of_mem hs)
      exact ih body hbody s hs (h.2 body hbody s hs) (by omega) .lax
    rw [ofJsonWithin?, hform]
    simp [hinner, Form.sequence_eq_some_iff.2 rfl]

theorem areWords_ofJsonWithin? {reading : Reading} {j : Json}
    (h : ofJsonWithin? levels reading j = some s) : AreWords s.offsets := by
  induction levels generalizing reading j s with
  | zero => cases h
  | succ levels ih =>
    simp only [ofJsonWithin?, step_eq_some, return_eq_some] at h
    obtain ⟨outer, houter, form, hform, rfl⟩ := h
    rw [Form.sequence_eq_some_iff] at hform
    refine areWords_node.2 ⟨?_, fun body hbody s hs => ?_⟩
    · rw [← Form.offsets_map some, ← hform, Form.offsets_map]
      exact Form.areWords_ofJson? houter
    · have hmem : some body ∈ (form.map some).bodies := by
        rw [Form.bodies_map]
        exact mem_map_of_mem hbody
      rw [← hform, Form.bodies_map] at hmem
      obtain ⟨items, -, hitems⟩ := mem_map.1 hmem
      obtain ⟨j, -, hj⟩ := exists_of_mem_mapM hitems hs
      exact ih hj

theorem codec : Codec toJson ofJson? offsets where
  decode_encode _ h := ofJsonWithin?_toJson h (Nat.lt_succ_self _) .strict
  areWords _ _ h := areWords_ofJsonWithin? h

/-- The offsets in a handler of a trigger. -/
def handlerOffsets (h : Handler (List Statement)) : List Nat :=
  h.offsets ++ h.body.flatMap offsets

theorem codec_handler : Codec handlerToJson handlerOfJson? handlerOffsets where
  decode_encode h hwords := by
    simp only [handlerOffsets, areWords_append, areWords_flatMap] at hwords
    have hhandler := Handler.codec.decode_encode (h.map (map toJson)) hwords.1
    have hbody := codec.mapM_map hwords.2
    rw [handlerOfJson?, handlerToJson, hhandler]
    simp [Handler.map, hbody]
  areWords j h hread := by
    simp only [handlerOfJson?, step_eq_some, return_eq_some] at hread
    obtain ⟨handler, hhandler, body, hbody, rfl⟩ := hread
    exact areWords_append.2 ⟨Handler.codec.areWords j handler hhandler,
      areWords_flatMap.2 (codec.areWords_mapM hbody)⟩

end Statement

/-! ### Triggers -/

/-- A reader of texts gives a value back from its indented text. -/
def Json.ReadsBack (readText : String → Option Json) (j : Json) : Prop := readText j.pretty = some j

namespace Trigger

/-- All offsets in a trigger. -/
def offsets (t : Trigger) : List Nat :=
  t.header.toList.flatMap Header.offsets ++ t.declarations.offsets ++
    t.body.flatMap Statement.offsets ++ t.handlers.flatMap Statement.handlerOffsets ++
    t.unparsed.flatMap Fragment.offsets

theorem codec : Codec toJson ofJson? offsets where
  decode_encode t h := by
    simp only [offsets, areWords_append, areWords_flatMap, mem_toList] at h
    obtain ⟨⟨⟨⟨hheader, hdeclarations⟩, hbody⟩, hhandlers⟩, hunparsed⟩ := h
    have hdeclared := (Declarations.codec .strict).decode_encode t.declarations hdeclarations
    simp [toJson, ofJson?, record?, lookup_cons, lookup_append, Header.codec.maybeOf_map rfl hheader,
      hdeclared, Statement.codec.mapM_map hbody, Statement.codec_handler.mapM_map hhandlers,
      Fragment.codec.fallbackOf_listed hunparsed]
  areWords j t h := by
    simp only [ofJson?, step_eq_some, return_eq_some] at h
    obtain ⟨j, -, header, hheader, declarations, hdeclarations, body, hbody, handlers, hhandlers,
      unparsed, hunparsed, rfl⟩ := h
    simp only [offsets, areWords_append, areWords_flatMap, mem_toList]
    exact ⟨⟨⟨⟨Header.codec.areWords_maybe hheader,
      (Declarations.codec .strict).areWords_require hdeclarations⟩,
      areWords_flatMap.1 (Statement.codec.list.areWords_require hbody)⟩,
      Statement.codec_handler.areWords_fallback hhandlers⟩,
      Fragment.codec.areWords_fallback hunparsed⟩

/-- A trigger is read back from what is written for it exactly if its offsets are words, and a
trigger that was read from any value is read back. The same holds of its text for every reader of
texts that gives its value back. -/
theorem read_jsonText (t : Trigger) :
    (ofJson? t.toJson = some t ↔ ∀ n ∈ t.offsets, n < wordBound) ∧
    (∀ j, ofJson? j = some t → ofJson? t.toJson = some t) ∧
    ∀ readText : String → Option Json, Json.ReadsBack readText t.toJson →
      ((readText t.jsonText).bind ofJson? = some t ↔ ∀ n ∈ t.offsets, n < wordBound) ∧
      ∀ j, ofJson? j = some t → (readText t.jsonText).bind ofJson? = some t := by
  have hwords : ofJson? t.toJson = some t ↔ ∀ n ∈ t.offsets, n < wordBound :=
    ⟨codec.areWords _ _, codec.decode_encode t⟩
  have hread : ∀ j, ofJson? j = some t → ofJson? t.toJson = some t :=
    fun j h => codec.decode_encode t (codec.areWords j t h)
  refine ⟨hwords, hread, fun readText hback => ?_⟩
  have htext : (readText t.jsonText).bind ofJson? = ofJson? t.toJson := by
    rw [jsonText, hback, bind_some]
  rw [htext]
  exact ⟨hwords, hread⟩

/-- Conditionals and blocks that differ only in whether an empty part is there. -/
def emptyParts : Trigger where
  header := none
  declarations := .empty
  body := [
    .node (.conditional ⟨⟨"a > 0", 6⟩, []⟩ [] none),
    .node (.conditional ⟨⟨"a > 0", 6⟩, []⟩ [] (some [])),
    .node (.block ⟨none, [], [], []⟩),
    .node (.block ⟨some .empty, [], [], []⟩)]
  handlers := [⟨"OTHERS", [], [.simple (.raise none 18446744073709551615)], 0⟩]
  unparsed := []

/-- A reader that knows the text of `emptyParts`. -/
def readEmptyParts (text : String) : Option Json :=
  if text = emptyParts.jsonText then some emptyParts.toJson else none

/-- Empty parts are told from missing ones, and the largest offset is kept. -/
theorem read_jsonText_emptyParts :
    (∀ n ∈ emptyParts.offsets, n < wordBound) ∧ Json.ReadsBack readEmptyParts emptyParts.toJson ∧
      (readEmptyParts emptyParts.jsonText).bind ofJson? = some emptyParts := by
  have hwords : ∀ n ∈ emptyParts.offsets, n < wordBound := by decide +kernel
  have hback : Json.ReadsBack readEmptyParts emptyParts.toJson := if_pos rfl
  exact ⟨hwords, hback, ((read_jsonText emptyParts).2.2 readEmptyParts hback).1.2 hwords⟩

end Trigger

end TriggerDialect
