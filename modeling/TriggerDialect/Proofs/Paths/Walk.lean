import TriggerDialect.Tree.Trigger

/-!
# Paths are different

A path is the names of the branches and the numbers of the statements on the way, with dots between
them. None of these parts is empty or holds a dot, so that a path gives its parts back
(`ofParts_inj`). Branches of one statement have different names, hence a walk meets no path twice
(`Trigger.walk_nodup`).
-/

namespace TriggerDialect

open List Text

variable {base parts : List String} {name part : String} {i n : Nat} {body : List Statement}
  {xs : List β} (form : Form β) (path : String)

namespace Path

/-- A text that can stand between two dots of a path. -/
def IsPart (part : String) : Prop := part ≠ "" ∧ '.' ∉ part.toList

/-- The path that leads through these parts. -/
def ofParts (parts : List String) : String := join "." parts

theorem toList_ofParts (parts : List String) :
    (ofParts parts).toList = ['.'].intercalate (parts.map String.toList) := by
  unfold ofParts
  fun_induction join "." parts with
  | case1 => rfl
  | case2 part => simp
  | case3 part next rest ih => simp [ih]

theorem ofParts_ne_empty (h : IsPart part) : ofParts (part :: parts) ≠ "" := by
  cases parts with
  | nil => exact h.1
  | cons next rest => simp [ofParts, join]

/-- The parts of a path can be told from its text. -/
theorem ofParts_inj {parts' : List String} (h : ∀ part ∈ parts, IsPart part)
    (h' : ∀ part ∈ parts', IsPart part) (heq : ofParts parts = ofParts parts') :
    parts = parts' := by
  cases parts with
  | nil =>
    cases parts' with
    | nil => rfl
    | cons part' rest' => exact absurd heq.symm (ofParts_ne_empty (h' part' mem_cons_self))
  | cons part rest =>
    cases parts' with
    | nil => exact absurd heq (ofParts_ne_empty (h part mem_cons_self))
    | cons part' rest' =>
      have hsplit : ∀ {p : String} {ps : List String}, (∀ part ∈ p :: ps, IsPart part) →
          (ofParts (p :: ps)).toList.splitOn '.' = (p :: ps).map String.toList := by
        intro p ps hparts
        rw [toList_ofParts]
        refine splitOn_intercalate '.' (fun chars hchars => ?_) (cons_ne_nil _ _)
        obtain ⟨part, hpart, rfl⟩ := mem_map.1 hchars
        exact (hparts part hpart).2
      have hlists := hsplit h
      rw [heq, hsplit h'] at hlists
      exact (map_inj_right fun a b => String.toList_inj.1).1 hlists.symm

theorem ofParts_concat (first : String) (rest : List String) (part : String) :
    ofParts (first :: rest ++ [part]) = ofParts (first :: rest) ++ "." ++ part := by
  induction rest generalizing first with
  | nil => rfl
  | cons next rest ih =>
    have hcons : ∀ parts, ofParts (first :: next :: parts) =
        first ++ "." ++ ofParts (next :: parts) := fun parts => rfl
    simp only [cons_append] at ih ⊢
    rw [hcons, ih, hcons, String.append_assoc, String.append_assoc, String.append_assoc,
      String.append_assoc, String.append_assoc]

theorem inside_ofParts (h : ∀ part ∈ parts, IsPart part) (part : String) :
    inside (ofParts parts) part = ofParts (parts ++ [part]) := by
  cases parts with
  | nil => rfl
  | cons first rest =>
    have hne : ofParts (first :: rest) ≠ "" := ofParts_ne_empty (h first mem_cons_self)
    rw [inside, if_neg (by simpa using hne), ofParts_concat]

/-! ### Names of branches and statements -/

theorem decimal_inj {m : Nat} (h : decimal m = decimal n) : m = n := by
  have hchars : decimalChars m = decimalChars n := String.ofList_injective h
  rw [← value_decimalChars m, hchars, value_decimalChars]

theorem isPart_decimal (n : Nat) : IsPart (decimal n) := by
  refine ⟨?_, fun hdot => ?_⟩
  · simpa [decimal] using decimalChars_ne_nil n
  · rw [decimal, String.toList_ofList] at hdot
    exact absurd (isDigit_of_mem_decimalChars hdot) (by decide)

theorem decimal_ne_numbered {letter : Char} (h : letter ∈ name.toList)
    (hletter : letter.isDigit = false) : decimal n ≠ numbered name i := by
  intro heq
  have hmem : letter ∈ (decimal n).toList := by simp [heq, numbered, h]
  rw [decimal, String.toList_ofList] at hmem
  simp [isDigit_of_mem_decimalChars hmem] at hletter

theorem isPart_numbered (h : IsPart name) (i : Nat) : IsPart (numbered name i) := by
  refine ⟨?_, ?_⟩
  · simp [numbered, h.1]
  · simp only [numbered, String.toList_append, mem_append, not_or]
    exact ⟨h.2, (isPart_decimal (i + 1)).2⟩

/-! ### Paths that lead through a base -/

/-- The paths are different, and all lead through `base`. -/
structure Owned (base paths : List String) : Prop where
  nodup : paths.Nodup
  through : ∀ path ∈ paths, ∃ more, (∀ part ∈ base ++ more, IsPart part) ∧
    path = ofParts (base ++ more)

theorem Owned.tail {paths : List String} {path : String} (h : Owned base (path :: paths)) :
    Owned base paths where
  nodup := h.nodup.of_cons
  through other hother := h.through other (mem_cons_of_mem path hother)

/-- A base and the paths of its branches, which have different names. -/
theorem Owned.node {branches : List (String × List String)} (hbase : ∀ part ∈ base, IsPart part)
    (hnodup : (branches.map Prod.fst).Nodup)
    (h : ∀ branch ∈ branches, Owned (base ++ [branch.1]) branch.2) :
    Owned base (ofParts base :: branches.flatMap Prod.snd) := by
  have hthrough : ∀ branch ∈ branches, ∀ path ∈ branch.2, ∃ more,
      (∀ part ∈ base ++ branch.1 :: more, IsPart part) ∧
        path = ofParts (base ++ branch.1 :: more) := by
    intro branch hbranch path hpath
    simpa using (h branch hbranch).through path hpath
  constructor
  case nodup =>
    refine nodup_cons.2 ⟨fun hmem => ?_, pairwise_flatMap.2 ⟨?_, ?_⟩⟩
    · obtain ⟨branch, hbranch, hpath⟩ := mem_flatMap.1 hmem
      obtain ⟨more, hvalid, heq⟩ := hthrough branch hbranch _ hpath
      have hlength := congrArg length (ofParts_inj hbase hvalid heq)
      simp at hlength
    · exact fun branch hbranch => (h branch hbranch).nodup
    · refine (pairwise_map.1 hnodup).imp_of_mem ?_
      intro a b ha hb hne path hpath path' hpath'
      obtain ⟨more, hvalid, rfl⟩ := hthrough a ha path hpath
      obtain ⟨more', hvalid', rfl⟩ := hthrough b hb path' hpath'
      intro heq
      have hparts := append_cancel_left (ofParts_inj hvalid hvalid' heq)
      exact hne (cons.inj hparts).1
  case through =>
    refine forall_mem_cons.2 ⟨⟨[], by simpa using hbase, by simp⟩, fun path hpath => ?_⟩
    obtain ⟨branch, hbranch, hpath⟩ := mem_flatMap.1 hpath
    obtain ⟨more, hvalid, rfl⟩ := hthrough branch hbranch path hpath
    exact ⟨branch.1 :: more, hvalid, rfl⟩

end Path

/-! ### Branches of a statement -/

variable {β : Type}

theorem labelArms_inside (name : String) (arms : List (Arm β)) :
    (labelArms path name arms).map Arm.body =
      (labelArms "" name arms).map fun arm => (Path.inside path arm.body.1, arm.body.2) := by
  apply ext_getElem <;> simp [labelArms, Path.inside]

theorem labelHandlers_inside (handlers : List (Handler β)) :
    (labelHandlers path handlers).map Handler.body =
      (labelHandlers "" handlers).map fun h => (Path.inside path h.body.1, h.body.2) := by
  apply ext_getElem <;> simp [labelHandlers, Path.inside]

/-- The branches of a statement are named in the same way wherever it stands. -/
theorem Form.bodies_label_inside (form : Form β) :
    (form.label path).bodies =
      (form.label "").bodies.map fun entry => (Path.inside path entry.1, entry.2) := by
  cases form with
  | simple s => rfl
  | conditional first others otherwise =>
    cases otherwise with
    | none | some =>
      simp only [label, bodies, labelArms_inside path]
      simp [Path.inside]
  | selection selector arms otherwise =>
    cases otherwise with
    | none | some =>
      simp only [label, bodies, labelArms_inside path]
      simp [Path.inside]
  | queryLoop | rangeLoop | whileLoop | endlessLoop => simp [label, bodies, Path.inside]
  | block b =>
    simp only [label, bodies, labelHandlers_inside path]
    simp [Path.inside]

/-- The names that numbered branches get. -/
def numberedNames (name : String) (xs : List β) : List String :=
  xs.mapIdx fun i _ => Path.numbered name i

theorem mem_numberedNames : part ∈ numberedNames name xs → ∃ i, part = Path.numbered name i := by
  simp only [numberedNames, mem_mapIdx]
  rintro ⟨i, _, rfl⟩
  exact ⟨i, rfl⟩

theorem nodup_numberedNames (name : String) (xs : List β) : (numberedNames name xs).Nodup := by
  rw [numberedNames, nodup_iff_pairwise_ne, pairwise_iff_getElem]
  intro i j hi hj hlt heq
  simp only [getElem_mapIdx] at heq
  have hsucc := Path.decimal_inj (String.append_right_inj name |>.1 heq)
  omega

theorem notMem_numberedNames (h : ¬name.toList <+: part.toList) : part ∉ numberedNames name xs := by
  intro hmem
  obtain ⟨i, rfl⟩ := mem_numberedNames hmem
  exact h (by simp [Path.numbered])

theorem names_labelArms (name : String) (arms : List (Arm β)) :
    (labelArms "" name arms).map (fun arm => arm.body.1) = numberedNames name arms := by
  apply ext_getElem <;> simp [labelArms, numberedNames, Path.inside]

theorem names_labelHandlers (handlers : List (Handler β)) :
    (labelHandlers "" handlers).map (fun h => h.body.1) = numberedNames "handler" handlers := by
  apply ext_getElem <;> simp [labelHandlers, numberedNames, Path.inside]

/-- The names of the branches of a statement. -/
def Form.branchNames : Form β → List String
  | .simple _ => []
  | .conditional _ others otherwise =>
    "then" :: numberedNames "elsif" others ++ otherwise.toList.map fun _ => "else"
  | .selection _ arms otherwise => numberedNames "when" arms ++ otherwise.toList.map fun _ => "else"
  | .queryLoop _ _ _ => ["body"]
  | .rangeLoop _ _ _ _ _ => ["body"]
  | .whileLoop _ _ => ["body"]
  | .endlessLoop _ => ["body"]
  | .block b => "body" :: numberedNames "handler" b.handlers

theorem Form.map_fst_label : (form.label "").bodies.map Prod.fst = form.branchNames := by
  cases form with
  | conditional first others otherwise =>
    cases otherwise <;>
      simp [label, bodies, branchNames, Function.comp_def, names_labelArms, Path.inside]
  | selection selector arms otherwise =>
    cases otherwise <;>
      simp [label, bodies, branchNames, Function.comp_def, names_labelArms, Path.inside]
  | block b =>
    simp [label, bodies, branchNames, Function.comp_def, names_labelHandlers, Path.inside]
  | _ => rfl

theorem nodup_otherwise {names : List String} (h : names.Nodup) (helse : "else" ∉ names)
    (otherwise : Option β) : (names ++ otherwise.toList.map fun _ => "else").Nodup := by
  cases otherwise with
  | none => simpa using h
  | some body =>
    refine nodup_append.2 ⟨h, by simp, fun name hname other hother heq => helse ?_⟩
    obtain rfl : other = "else" := by simpa using hother
    rwa [heq] at hname

/-- The branches of a statement have different names. -/
theorem Form.nodup_branchNames : form.branchNames.Nodup := by
  cases form with
  | simple s => exact nodup_nil
  | conditional first others otherwise =>
    have hothers : ("then" :: numberedNames "elsif" others).Nodup :=
      nodup_cons.2 ⟨notMem_numberedNames (by decide), nodup_numberedNames "elsif" others⟩
    have helse : "else" ∉ "then" :: numberedNames "elsif" others := by
      rw [mem_cons, not_or]
      exact ⟨by decide, notMem_numberedNames (by decide)⟩
    exact nodup_otherwise hothers helse otherwise
  | selection selector arms otherwise =>
    exact nodup_otherwise (nodup_numberedNames "when" arms) (notMem_numberedNames (by decide))
      otherwise
  | queryLoop | rangeLoop | whileLoop | endlessLoop => simp [branchNames]
  | block b =>
    exact nodup_cons.2
      ⟨notMem_numberedNames (by decide), nodup_numberedNames "handler" b.handlers⟩

theorem isPart_numberedNames (h : Path.IsPart name) (xs : List β) :
    ∀ part ∈ numberedNames name xs, Path.IsPart part := by
  intro part hpart
  obtain ⟨i, rfl⟩ := mem_numberedNames hpart
  exact Path.isPart_numbered h i

theorem Form.isPart_branchNames : ∀ name ∈ form.branchNames, Path.IsPart name := by
  have hword : ∀ {word : String}, word ∈ ["then", "elsif", "else", "when", "body", "handler"] →
      Path.IsPart word := by
    unfold Path.IsPart
    decide
  have helse : ∀ otherwise : Option β, ∀ name ∈ otherwise.toList.map fun _ => "else",
      Path.IsPart name := by
    intro otherwise name hname
    obtain ⟨body, _, rfl⟩ := mem_map.1 hname
    exact hword (by decide)
  cases form with
  | simple s => simp [branchNames]
  | conditional first others otherwise =>
    refine forall_mem_append.2 ⟨?_, helse otherwise⟩
    refine forall_mem_cons.2 ⟨hword (by decide), ?_⟩
    exact isPart_numberedNames (hword (by decide)) others
  | selection selector arms otherwise =>
    exact forall_mem_append.2
      ⟨isPart_numberedNames (hword (by decide)) arms, helse otherwise⟩
  | queryLoop | rangeLoop | whileLoop | endlessLoop =>
    exact forall_mem_singleton.2 (hword (by decide))
  | block b =>
    exact forall_mem_cons.2
      ⟨hword (by decide), isPart_numberedNames (hword (by decide)) b.handlers⟩

/-! ### Walks -/

open TriggerDialect.Path (IsPart Owned ofParts)

/-- The paths at which a walk meets statements. -/
def pathsOf (walk : List (String × Statement)) : List String := walk.map Prod.fst

theorem pathsOf_flatMap {α : Type} (xs : List α) (walk : α → List (String × Statement)) :
    pathsOf (xs.flatMap walk) = xs.flatMap fun x => pathsOf (walk x) := map_flatMap

namespace Statement

/-- The numbers of the statements of a list, each with the paths that it owns at its place. -/
def numberedPaths (base : List String) (body : List Statement) : List (String × List String) :=
  body.zipIdx.map fun entry =>
    let number := decimal (entry.2 + 1)
    (number, pathsOf (walk entry.1 (ofParts (base ++ [number]))))

theorem pathsOf_walkList (hbase : ∀ part ∈ base, IsPart part) (body : List Statement) :
    pathsOf (walkList (ofParts base) body) = (numberedPaths base body).flatMap Prod.snd := by
  have hchild : ∀ i, Path.child (ofParts base) i = ofParts (base ++ [decimal (i + 1)]) :=
    fun i => Path.inside_ofParts hbase _
  simp only [walkList_eq, hchild, pathsOf_flatMap, numberedPaths, flatMap_map]

theorem nodup_numbers (base : List String) (body : List Statement) :
    ((numberedPaths base body).map Prod.fst).Nodup := by
  rw [numberedPaths, map_map, nodup_iff_pairwise_ne, pairwise_iff_getElem]
  intro i j hi hj hlt heq
  simp only [getElem_map, getElem_zipIdx, Function.comp_apply, Nat.zero_add] at heq
  have hsucc := Path.decimal_inj heq
  omega

/-- Each statement of a list owns its paths, if statements do wherever they stand. -/
theorem numberedPaths_owned (hbase : ∀ part ∈ base, IsPart part)
    (h : ∀ s ∈ body, ∀ base, (∀ part ∈ base, IsPart part) →
      Owned base (pathsOf (walk s (ofParts base)))) :
    ∀ branch ∈ numberedPaths base body, Owned (base ++ [branch.1]) branch.2 := by
  intro branch hbranch
  obtain ⟨entry, hentry, rfl⟩ := mem_map.1 hbranch
  refine h entry.1 (fst_mem_of_mem_zipIdx hentry) _ (forall_mem_append.2 ⟨hbase, ?_⟩)
  exact forall_mem_singleton.2 (Path.isPart_decimal _)

theorem walkList_owned_of (hbase : ∀ part ∈ base, IsPart part)
    (h : ∀ s ∈ body, ∀ base, (∀ part ∈ base, IsPart part) →
      Owned base (pathsOf (walk s (ofParts base)))) :
    Owned base (pathsOf (walkList (ofParts base) body)) := by
  rw [pathsOf_walkList hbase]
  exact (Owned.node hbase (nodup_numbers _ _) (numberedPaths_owned hbase h)).tail

/-- A statement owns the paths at which a walk over it meets statements. -/
theorem walk_owned (s : Statement) (base : List String) (hbase : ∀ part ∈ base, IsPart part) :
    Owned base (pathsOf (walk s (ofParts base))) := by
  induction s using Statement.induction generalizing base with
  | node form ih =>
    -- The branches are those of the form, each with what its list owns one part further on.
    let branches := (form.label "").bodies.map fun entry =>
      (entry.1, pathsOf (walkList (ofParts (base ++ [entry.1])) entry.2))
    have hnames : branches.map Prod.fst = form.branchNames := by
      rw [map_map]
      exact form.map_fst_label
    have hpaths : pathsOf (walk (.node form) (ofParts base)) =
        ofParts base :: branches.flatMap Prod.snd := by
      rw [walk_node, Form.bodies_label_inside, flatMap_map, flatMap_map]
      simp [pathsOf, map_flatMap, Path.inside_ofParts hbase]
    rw [hpaths]
    refine Owned.node hbase (hnames ▸ form.nodup_branchNames) fun branch hbranch => ?_
    have hpart : IsPart branch.1 :=
      form.isPart_branchNames branch.1 (hnames ▸ mem_map_of_mem hbranch)
    obtain ⟨entry, hentry, rfl⟩ := mem_map.1 hbranch
    have hinner : ∀ part ∈ base ++ [entry.1], IsPart part :=
      forall_mem_append.2 ⟨hbase, forall_mem_singleton.2 hpart⟩
    exact walkList_owned_of hinner (ih entry.2 (Form.snd_mem_bodies hentry))

end Statement

/-- No two statements of a trigger have the same path. -/
theorem Trigger.nodup_paths (t : Trigger) : (pathsOf t.walk).Nodup := by
  -- The first part of a path is the number of a statement of the body or the name of a handler.
  let handlerPaths := (labelHandlers "" t.handlers).map fun h =>
    (h.body.1, pathsOf (Statement.walkList h.body.1 h.body.2))
  have hnames : handlerPaths.map Prod.fst = numberedNames "handler" t.handlers := by
    rw [map_map]
    exact names_labelHandlers t.handlers
  have hnone : ∀ part ∈ ([] : List String), IsPart part := by simp
  have hpaths : pathsOf t.walk =
      (Statement.numberedPaths [] t.body ++ handlerPaths).flatMap Prod.snd := by
    rw [flatMap_append, ← Statement.pathsOf_walkList hnone, flatMap_map, ← pathsOf_flatMap]
    exact map_append
  rw [hpaths]
  refine (Owned.node hnone ?_ (forall_mem_append.2 ⟨?_, ?_⟩)).tail.nodup
  · rw [map_append, hnames, nodup_append]
    refine ⟨Statement.nodup_numbers [] t.body, nodup_numberedNames _ _, ?_⟩
    intro number hnumber name hname
    obtain ⟨branch, hbranch, rfl⟩ := mem_map.1 hnumber
    obtain ⟨entry, _, rfl⟩ := mem_map.1 hbranch
    obtain ⟨k, rfl⟩ := mem_numberedNames hname
    have hletter : 'h' ∈ "handler".toList := by decide
    exact Path.decimal_ne_numbered hletter (by decide)
  · exact Statement.numberedPaths_owned hnone fun s _ => Statement.walk_owned s
  · intro branch hbranch
    have hpart : IsPart branch.1 := isPart_numberedNames (by unfold IsPart; decide) t.handlers _
      (hnames ▸ mem_map_of_mem hbranch)
    obtain ⟨h, _, rfl⟩ := mem_map.1 hbranch
    have hbase : ∀ part ∈ [h.body.1], IsPart part := forall_mem_singleton.2 hpart
    exact Statement.walkList_owned_of hbase fun s _ => Statement.walk_owned s

end TriggerDialect
