import TriggerDialect.Proofs.Writing.Sites

/-!
# Findings and their paths

What is found when a trigger is written is found at its sites. A site names no path, or that of the
statement in which it is, or that of the body of the handler whose name it is, which goes by the
place of the handler in the tree and not by the order of the output (`mem_formSites`). So every
report names a statement or a handler that is there (`paths_identify`).
-/

namespace TriggerDialect

open List

variable {path : String} {statements : List Statement} {β : Type} {findings : List Finding}
  {t : Trigger}

/-- The finding is about a name of the handler, whose body stands at `path`. -/
def Handler.Raises {β : Type} (h : Handler β) (path : String) (f : Finding) : Prop :=
  ∃ name ∈ h.names, f = ⟨.userHandler name, h.offset, some path⟩ ∨
    f = ⟨.unmappedCondition name, h.offset, some path⟩

/-- The site is at a name of the handler. -/
def Handler.Names {β : Type} (h : Handler β) (site : Generate.Site) : Prop :=
  ∃ around, ∃ name ∈ h.names, site.part = .handled around name h.offset

namespace Generate

variable {around : List Declarations} {site : Site}

/-! ### Sites of statements -/

theorem path_of_mem_declarationSites {d : Declaration} (h : site ∈ declarationSites d) :
    site.path = none := by
  have hvalue : ∀ value, site ∈ initializerSites value → site.path = none := by
    rintro (value | text) h
    · cases h
    · rw [mem_singleton.1 h]
  cases d with
  | ofVariable v =>
    rcases mem_cons.1 h with rfl | h
    · rfl
    · obtain ⟨value, -, h⟩ := mem_flatMap.1 h
      exact hvalue value h
  | ofConstant c =>
    rcases mem_cons.1 h with rfl | h
    · rfl
    · exact hvalue c.value h
  | ofCursor c =>
    simp only [declarationSites, mem_append, mem_map, mem_singleton] at h
    rcases h with ⟨p, -, rfl⟩ | rfl <;> rfl
  | ofException | ofRaw => cases h

theorem mem_blockSites {b : Block InnerSites} (h : site ∈ blockSites around b) :
    site.path = none ∨ (∃ inner ∈ (Form.block b).bodies, ∃ around, site ∈ inner.2 around) ∨
      ∃ h ∈ b.handlers, h.Names site ∧ site.path = some h.body.1 := by
  simp only [blockSites, mem_append, mem_flatMap] at h
  rcases h with (⟨d, -, h⟩ | h) | ⟨handler, hhandler, h⟩
  · exact .inl (path_of_mem_declarationSites h)
  · exact .inr (.inl ⟨b.body, mem_cons_self, _, h⟩)
  · have hmem := mem_ordered.1 hhandler
    rcases mem_append.1 h with h | h
    · obtain ⟨name, hname, rfl⟩ := mem_map.1 h
      exact .inr (.inr ⟨handler, hmem, ⟨_, name, hname, rfl⟩, rfl⟩)
    · exact .inr (.inl ⟨handler.body, mem_cons_of_mem _ (mem_map_of_mem hmem), _, h⟩)

theorem mem_armSites {arms : List (Arm InnerSites)} {otherwise : Option InnerSites}
    {bodies : List InnerSites} (hbodies : arms.map Arm.body ++ otherwise.toList = bodies)
    (h : site ∈ arms.flatMap (armSites around path) ++ otherwise.toList.flatMap (·.2 around)) :
    site.path = some path ∨ ∃ inner ∈ bodies, ∃ around, site ∈ inner.2 around := by
  subst hbodies
  simp only [mem_append, mem_flatMap] at h
  rcases h with ⟨a, ha, h⟩ | ⟨body, hbody, h⟩
  · rcases mem_cons.1 h with rfl | h
    · exact .inl rfl
    · exact .inr ⟨a.body, mem_append_left _ (mem_map_of_mem ha), around, h⟩
  · exact .inr ⟨body, mem_append_right _ hbody, around, h⟩

/-- A site of a statement is its own, one of its inner lists, or at a name of one of its handlers.
-/
theorem mem_formSites {form : Form InnerSites} (h : site ∈ formSites around path form) :
    site.path = none ∨ site.path = some path ∨
      (∃ inner ∈ form.bodies, ∃ around, site ∈ inner.2 around) ∨
      ∃ b, form = .block b ∧ ∃ h ∈ b.handlers, h.Names site ∧ site.path = some h.body.1 := by
  cases form with
  | simple s =>
    refine .inr (.inl ?_)
    change site ∈ simpleSites _ path s at h
    cases s <;> grind [simpleSites, textAt]
  | conditional first others otherwise =>
    exact .inr ((mem_armSites rfl h).imp_right .inl)
  | selection selector arms otherwise =>
    rw [formSites, append_assoc] at h
    rcases mem_append.1 h with h | h
    · obtain ⟨f, -, rfl⟩ := mem_map.1 h
      exact .inr (.inl rfl)
    · exact .inr ((mem_armSites rfl h).imp_right .inl)
  | queryLoop | rangeLoop | whileLoop | endlessLoop => grind [formSites, textAt, Form.bodies]
  | block b =>
    rcases mem_blockSites h with h | h | h
    · exact .inl h
    · exact .inr (.inr (.inl h))
    · exact .inr (.inr (.inr ⟨b, rfl, h⟩))

/-! ### Sites against a walk -/

/-- The handler is one of a block that the walk visits, and its body stands at `path`. The number in
the path is the place of the handler among those of its block. -/
def HandlerAt (walk : List (String × Statement)) (path : String)
    (h : Handler (List Statement)) : Prop :=
  ∃ outer b k, (outer, Statement.node (.block b)) ∈ walk ∧ b.handlers[k]? = some h ∧
    path = Path.inside outer (Path.numbered "handler" k)

/-- The site names no path, or that of a visited statement of which it is a site, or that of a
handler of which it is a name. -/
def Located (walk : List (String × Statement)) (site : Site) : Prop :=
  ∀ path, site.path = some path →
    (∃ s around, (path, s) ∈ walk ∧ site ∈ statementSites s around path) ∨
      ∃ h, HandlerAt walk path h ∧ h.Names site

theorem Located.mono {walk walk' : List (String × Statement)} (h : Located walk site)
    (hsub : walk ⊆ walk') : Located walk' site := by
  intro path hpath
  rcases h path hpath with ⟨s, around, hmem, hs⟩ | ⟨handler, ⟨outer, b, k, hmem, hget, heq⟩, hnames⟩
  · exact .inl ⟨s, around, hsub hmem, hs⟩
  · exact .inr ⟨handler, ⟨outer, b, k, hsub hmem, hget, heq⟩, hnames⟩

/-- A handler with its sites is one of the tree, with its place there in its path. -/
theorem exists_of_mem_labelled {handlers : List (Handler (List Statement))} {h : Handler InnerSites}
    (hmem : h ∈ (labelHandlers path handlers).map
      (Handler.map fun entry => bodySites entry.1 entry.2)) :
    ∃ k h', handlers[k]? = some h' ∧ h.body.1 = Path.inside path (Path.numbered "handler" k) ∧
      (h.Names site → h'.Names site) := by
  obtain ⟨labelled, hlabelled, rfl⟩ := mem_map.1 hmem
  obtain ⟨k, hk, rfl⟩ := mem_mapIdx.1 hlabelled
  exact ⟨k, _, getElem?_eq_getElem hk, rfl, id⟩

/-- The sites of a list are those of its statements. -/
theorem located_of_mem_body (h : site ∈ (bodySites path statements).2 around)
    (hstatements : ∀ s ∈ statements, ∀ around path, site ∈ statementSites s around path →
      Located (s.walk path) site) : Located (Statement.walkList path statements) site := by
  rw [sites_body] at h
  obtain ⟨entry, hentry, h⟩ := mem_flatMap.1 h
  refine (hstatements entry.1 (fst_mem_of_mem_zipIdx hentry) around _ h).mono ?_
  rw [Statement.walkList_eq]
  exact fun visited hvisited => mem_flatMap.2 ⟨entry, hentry, hvisited⟩

/-- A site of a statement names a place inside it. -/
theorem statement_located (s : Statement) (around : List Declarations) (path : String)
    (h : site ∈ statementSites s around path) : Located (s.walk path) site := by
  induction s using Statement.induction generalizing around path with
  | node form ih =>
    have hself : (path, Statement.node form) ∈ (Statement.node form).walk path := by
      rw [Statement.walk_node]
      exact mem_cons_self
    have hfound := h
    rw [statementSites_node] at hfound
    rcases mem_formSites hfound with hnone | hown | ⟨inner, hinner, around', hsite⟩ |
      ⟨b, hform, handler, hmem, hnames, hplace⟩
    · exact fun q hq => by simp [hnone] at hq
    · intro q hq
      obtain rfl : path = q := by simpa [hown] using hq
      exact .inl ⟨_, around, hself, h⟩
    · rw [Form.bodies_map] at hinner
      obtain ⟨entry, hentry, rfl⟩ := mem_map.1 hinner
      refine (located_of_mem_body hsite (ih entry.2 (Form.snd_mem_bodies hentry))).mono ?_
      rw [Statement.walk_node]
      exact fun visited hvisited =>
        mem_cons_of_mem _ (mem_flatMap.2 ⟨entry, hentry, hvisited⟩)
    · cases form with
      | block b =>
        cases hform
        obtain ⟨k, h', hget, hpath, hnames'⟩ := exists_of_mem_labelled hmem
        intro q hq
        rw [hplace, hpath] at hq
        cases hq
        exact .inr ⟨h', ⟨path, b, k, hself, hget, rfl⟩, hnames' hnames⟩
      | _ => cases hform

end Generate

/-! ### Triggers -/

/-- The handler is one of the trigger or of a block in it, and its body stands at `path`. -/
def Trigger.HandlerAt (t : Trigger) (path : String) (h : Handler (List Statement)) : Prop :=
  (∃ k, t.handlers[k]? = some h ∧ path = Path.numbered "handler" k) ∨
    Generate.HandlerAt t.walk path h

namespace Finding

theorem mem_of_mem_firstOfEach {seen : List String} {f : Finding}
    (h : f ∈ firstOfEach seen findings) : f ∈ findings := by
  fun_induction firstOfEach seen findings with
  | case1 => cases h
  | case2 seen first rest hseen ih => exact mem_cons_of_mem first (ih h)
  | case3 seen first rest hseen ih =>
    rcases mem_cons.1 h with rfl | h
    · exact mem_cons_self
    · exact mem_cons_of_mem first (ih h)

theorem exists_of_mem_report {d : Diagnostic} (h : d ∈ report findings) :
    ∃ f ∈ findings, f.diagnostic = d := by
  obtain ⟨f, hf, rfl⟩ := mem_map.1 h
  exact ⟨f, mem_of_mem_firstOfEach hf, rfl⟩

end Finding

namespace Generate

variable {site : Site} {wrap : Wrap}

/-- A site outside the block of a trigger names no path. -/
theorem mem_triggerSites (h : site ∈ triggerSites wrap t) :
    site.path = none ∨ site ∈ triggerBlockSites t := by
  unfold triggerSites at h
  split at h <;> grind

/-- A site of a trigger names a place in the trigger. -/
theorem triggerSites_located (h : site ∈ triggerSites wrap t) :
    ∀ path, site.path = some path →
      (∃ s around, (path, s) ∈ t.walk ∧ site ∈ statementSites s around path) ∨
        ∃ h, t.HandlerAt path h ∧ h.Names site := by
  intro path hpath
  -- The sites of one of the lists of the trigger are found in its walk.
  have hlist : ∀ {outer statements around}, site ∈ (bodySites outer statements).2 around →
      Statement.walkList outer statements ⊆ t.walk →
      (∃ s around, (path, s) ∈ t.walk ∧ site ∈ statementSites s around path) ∨
        ∃ h, t.HandlerAt path h ∧ h.Names site := by
    intro outer statements around hsite hsub
    have hlocated := (located_of_mem_body hsite fun s _ => statement_located s).mono hsub
    exact (hlocated path hpath).imp id fun ⟨h, hat, hnames⟩ => ⟨h, .inr hat, hnames⟩
  have hblock : site ∈ triggerBlockSites t :=
    (mem_triggerSites h).resolve_left fun hnone => by simp [hnone] at hpath
  rcases mem_blockSites hblock with hnone | ⟨inner, hinner, _, hsite⟩ |
    ⟨handler, hmem, hnames, hplace⟩
  · simp [hnone] at hpath
  · simp only [Form.bodies, mem_cons, mem_map] at hinner
    rcases hinner with rfl | ⟨h, ⟨labelled, hlabelled, rfl⟩, rfl⟩
    · exact hlist hsite (subset_append_left _ _)
    · exact hlist hsite fun visited hvisited =>
        mem_append_right _ (mem_flatMap.2 ⟨labelled, hlabelled, hvisited⟩)
  · obtain ⟨k, h', hget, hpath', hnames'⟩ := exists_of_mem_labelled hmem
    rw [hplace, hpath'] at hpath
    cases hpath
    exact .inr ⟨h', .inl ⟨k, hget, rfl⟩, hnames' hnames⟩

end Generate

/-- What is found at a name of a handler is about that name. -/
theorem Handler.raises_of_names {h : Handler β} {site : Generate.Site} {f : Finding}
    {context : Recast.Context} (hnames : h.Names site) (hpath : site.path = some path)
    (hfound : f ∈ site.findings context) : h.Raises path f := by
  obtain ⟨around, name, hname, hpart⟩ := hnames
  refine ⟨name, hname, ?_⟩
  simp only [Generate.Site.findings, Generate.Scope.findings, hpart, hpath,
    Generate.Part.remarks] at hfound
  grind

/-- The paths of a trigger are different. Each report on its output that names a path names that of
a statement whose output gives it, or that of a handler whose names it is about, by the place of the
handler in the tree. -/
theorem Trigger.paths_identify (t : Trigger) :
    (pathsOf t.walk).Nodup ∧
      ∀ mapping options, ∀ d ∈ (Generate.trigger mapping options t).diagnostics,
        ∀ path, d.path = some path →
          (∃ s scope, (path, s) ∈ t.walk ∧
            ∃ f ∈ (Generate.statement s scope path).findings, f.diagnostic = d) ∨
          ∃ h, t.HandlerAt path h ∧ ∃ f, h.Raises path f ∧ f.diagnostic = d := by
  refine ⟨t.nodup_paths, fun mapping options d hd path hpath => ?_⟩
  obtain ⟨f, hf, rfl⟩ := Finding.exists_of_mem_report hd
  rw [Generate.findings_output] at hf
  obtain ⟨site, hsite, hfound⟩ := mem_flatMap.1 hf
  have hplace : site.path = some path := by
    obtain ⟨remark, -, rfl⟩ := mem_map.1 hfound
    exact hpath
  rcases Generate.triggerSites_located hsite path hplace with
    ⟨s, around, hmem, hs⟩ | ⟨h, hat, hnames⟩
  · refine .inl ⟨s, (Generate.scopeOf mapping options t).inside around, hmem, f, ?_, rfl⟩
    rw [Generate.findings_statement]
    exact mem_flatMap.2 ⟨site, hs, hfound⟩
  · exact .inr ⟨h, hat, f, Handler.raises_of_names hnames hplace hfound, rfl⟩

/-- A block whose handler for all other exceptions stands first, so that it is written last. -/
def Trigger.othersFirst : Trigger where
  header := none
  declarations := .empty
  body := [.node (.block {
    declarations := none
    body := [.simple .null]
    handlers := [⟨"OTHERS", [], [.simple .null], 10⟩, ⟨"bad_row", [], [.simple .null], 20⟩]
    unparsed := [] })]
  handlers := []
  unparsed := []

/-- The report on the handler written first, which is the second one in the tree. -/
def Trigger.othersFirstReport : Diagnostic :=
  ⟨.warning, .mapping, "unmapped exception bad_row passed through", some 20, some "1.handler2"⟩

theorem Trigger.paths_othersFirst :
    othersFirstReport ∈ (Generate.trigger .empty .standard othersFirst).diagnostics ∧
      ((∃ s scope, ("1.handler2", s) ∈ othersFirst.walk ∧
          ∃ f ∈ (Generate.statement s scope "1.handler2").findings,
            f.diagnostic = othersFirstReport) ∨
        ∃ h, othersFirst.HandlerAt "1.handler2" h ∧
          ∃ f, h.Raises "1.handler2" f ∧ f.diagnostic = othersFirstReport) := by
  have hreported : othersFirstReport ∈
      (Generate.trigger .empty .standard othersFirst).diagnostics := by decide +kernel
  exact ⟨hreported, othersFirst.paths_identify.2 .empty .standard _ hreported _ rfl⟩

end TriggerDialect
