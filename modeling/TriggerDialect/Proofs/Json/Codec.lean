import TriggerDialect.Json.Decoding

/-!
# Values that are written and read back

A codec is a way to write values of a type as JSON and one to read them that undo each other, as
long as the numbers in a value are words. Codecs of parts make codecs of lists, and each kind of
field of a record gives back what was written for it.
-/

namespace TriggerDialect.Json

open Option

variable {α : Type} {decode : Json → Option α} {as : List α} (fields : List (String × Json))
  (name : String)

/-! ### Readings in steps -/

theorem step_eq_some {β : Type} {x : Option β} {f : β → Option α} {a : α} :
    x >>= f = some a ↔ ∃ b, x = some b ∧ f b = some a := bind_eq_some_iff

theorem return_eq_some {a b : α} : (pure a : Option α) = some b ↔ a = b := some_inj

/-! ### Lists -/

/-- What is read back one by one is read back as a list. -/
theorem mapM_map_eq_some {encode : α → Json} (h : ∀ a ∈ as, decode (encode a) = some a) :
    (as.map encode).mapM decode = some as := by
  induction as with
  | nil => rfl
  | cons a as ih =>
    have has := ih fun a ha => h a (.tail _ ha)
    simp [h a List.mem_cons_self, has]

/-- Each value of a list that was read was read from an item. -/
theorem exists_of_mem_mapM {items : List Json} {a : α} (h : items.mapM decode = some as)
    (ha : a ∈ as) : ∃ j ∈ items, decode j = some a := by
  induction items generalizing as with
  | nil =>
    cases h
    cases ha
  | cons j items ih =>
    rw [List.mapM_cons] at h
    simp only [step_eq_some, return_eq_some] at h
    obtain ⟨b, hb, bs, hbs, rfl⟩ := h
    rcases List.mem_cons.1 ha with rfl | ha
    · exact ⟨j, List.mem_cons_self, hb⟩
    · obtain ⟨i, hi, hread⟩ := ih hbs ha
      exact ⟨i, .tail _ hi, hread⟩

/-! ### Codecs -/

/-- Numbers that fit a 64-bit word. -/
def AreWords (numbers : List Nat) : Prop := ∀ n ∈ numbers, n < wordBound

@[simp] theorem areWords_nil : AreWords [] := by simp [AreWords]

@[simp] theorem areWords_cons {n : Nat} {numbers : List Nat} :
    AreWords (n :: numbers) ↔ n < wordBound ∧ AreWords numbers := by
  simp [AreWords]

@[simp] theorem areWords_append {ms ns : List Nat} :
    AreWords (ms ++ ns) ↔ AreWords ms ∧ AreWords ns := by
  simp [AreWords, or_imp, forall_and]

@[simp] theorem areWords_flatMap {f : α → List Nat} :
    AreWords (as.flatMap f) ↔ ∀ a ∈ as, AreWords (f a) := by
  simp only [AreWords, List.mem_flatMap]
  exact ⟨fun h a ha n hn => h n ⟨a, ha, hn⟩, fun h n ⟨a, ha, hn⟩ => h a ha n hn⟩

/-- Writing and reading of values, each with the numbers that stand in it. -/
structure Codec (encode : α → Json) (decode : Json → Option α) (numbers : α → List Nat) : Prop where
  /-- A value is read back if its numbers are words. -/
  decode_encode : ∀ a, AreWords (numbers a) → decode (encode a) = some a
  /-- The numbers of a value that was read are words. -/
  areWords : ∀ j a, decode j = some a → AreWords (numbers a)

/-! ### Basic values -/

theorem codec_str : Codec .str str? fun _ => [] where
  decode_encode _ _ := rfl
  areWords _ _ _ := areWords_nil

theorem codec_word : Codec .nat word? fun n => [n] where
  decode_encode n h := if_pos (by simpa using h)
  areWords j n h := by
    cases j with
    | nat m =>
      simp only [word?, ite_none_right_eq_some, some.injEq] at h
      simpa using h.2 ▸ h.1
    | _ => cases h

/-- A choice is read back from its name if no other choice of the list has that name. -/
theorem codec_oneOf (reading : Reading) {name : α → String} {choices : List α}
    (h : ∀ a, choices.find? (fun choice => name choice == name a) = some a) :
    Codec (fun a => .str (name a)) (oneOf reading name choices) fun _ => [] where
  decode_encode a _ := h a
  areWords _ _ _ := areWords_nil

/-! ### Fields -/

/-- What stands for a list that is left out when it is empty. -/
def listed (encode : α → Json) (as : List α) : Option Json :=
  if as.isEmpty then none else some (.arr (as.map encode))

@[simp] theorem lookup_optional (key name : String) (encode : α → Json) (a : Option α) :
    (optional name encode a).lookup key = if key == name then a.map encode else none := by
  cases a with
  | none => simp [optional]
  | some a => cases h : key == name <;> simp [optional, List.lookup_cons, h]

@[simp] theorem lookup_unlessEmpty (key name : String) (encode : α → Json) (as : List α) :
    (unlessEmpty name encode as).lookup key = if key == name then listed encode as else none := by
  cases as with
  | nil => simp [unlessEmpty, listed]
  | cons a as => cases h : key == name <;> simp [unlessEmpty, listed, List.lookup_cons, h]

/-- The value of a field that may be missing or `null`. -/
def maybeOf (decode : Json → Option α) : Option Json → Option (Option α)
  | none => some none
  | some .null => some none
  | some value => (decode value).map some

/-- The value of a field that has a default where it is missing. -/
def fallbackOf (default : α) (decode : Json → Option α) : Option Json → Option α
  | none => some default
  | some value => decode value

@[simp] theorem fallbackOf_some (default : α) (decode : Json → Option α) (value : Json) :
    fallbackOf default decode (some value) = decode value := rfl

@[simp] theorem list_arr (decode : Json → Option α) (items : List Json) :
    Json.list decode (.arr items) = items.mapM decode := rfl

@[simp] theorem require_obj (decode : Json → Option α) :
    (Json.obj fields).require name decode = (fields.lookup name).bind decode := rfl

@[simp] theorem maybe_obj (decode : Json → Option α) :
    (Json.obj fields).maybe name decode = maybeOf decode (fields.lookup name) := rfl

@[simp] theorem fallback_obj (default : α) (decode : Json → Option α) :
    (Json.obj fields).fallback name default decode =
      fallbackOf default decode (fields.lookup name) := rfl

namespace Codec

variable {encode : α → Json} {decode : Json → Option α} {numbers : α → List Nat}
  (c : Codec encode decode numbers) {as : List α} {name : String} {j : Json} {a : Option α}

include c

theorem mapM_map (h : ∀ a ∈ as, AreWords (numbers a)) : (as.map encode).mapM decode = some as :=
  mapM_map_eq_some fun a ha => c.decode_encode a (h a ha)

theorem areWords_mapM {items : List Json} (h : items.mapM decode = some as) :
    ∀ a ∈ as, AreWords (numbers a) := by
  intro a ha
  obtain ⟨j, -, hj⟩ := exists_of_mem_mapM h ha
  exact c.areWords j a hj

theorem list : Codec (fun as => .arr (as.map encode)) (Json.list decode) (·.flatMap numbers) where
  decode_encode as h := c.mapM_map (areWords_flatMap.1 h)
  areWords j as h := by
    obtain ⟨items, -, has⟩ := bind_eq_some_iff.1 h
    exact areWords_flatMap.2 (c.areWords_mapM has)

/-! ### Fields that were written -/

/-- No value that is read back is written as if it were missing. -/
theorem maybeOf_map (hnull : decode .null = none) (h : ∀ b ∈ a, AreWords (numbers b)) :
    maybeOf decode (a.map encode) = some a := by
  cases a with
  | none => rfl
  | some b =>
    have hb := c.decode_encode b (h b rfl)
    have hne : encode b ≠ .null := by
      intro heq
      rw [heq, hnull] at hb
      cases hb
    rw [map_some, maybeOf.eq_3 _ _ hne, hb]
    rfl

theorem fallbackOf_listed (h : ∀ a ∈ as, AreWords (numbers a)) :
    fallbackOf [] (Json.list decode) (listed encode as) = some as := by
  cases as with
  | nil => rfl
  | cons a as => exact c.mapM_map h

/-! ### Fields that were read -/

theorem areWords_require {a : α} (h : j.require name decode = some a) : AreWords (numbers a) := by
  obtain ⟨value, -, ha⟩ := bind_eq_some_iff.1 h
  exact c.areWords value a ha

theorem areWords_maybe (h : j.maybe name decode = some a) : ∀ b ∈ a, AreWords (numbers b) := by
  unfold maybe at h
  split at h
  next => cases h; simp
  next => cases h; simp
  next value _ _ =>
    obtain ⟨b, hb, rfl⟩ := map_eq_some_iff.1 h
    simpa using c.areWords value b hb

theorem areWords_fallback (h : j.fallback name [] (Json.list decode) = some as) :
    ∀ a ∈ as, AreWords (numbers a) := by
  unfold fallback at h
  split at h
  next => cases h; simp
  next value _ => exact areWords_flatMap.1 (c.list.areWords value as h)

end Codec

end TriggerDialect.Json
