import Mathlib.Data.List.Nodup
import TriggerDialect.CommandLine.Run
import TriggerDialect.Proofs.Workspace.Writing

/-!
# Results in a directory

A run that converts files into a directory names each result after the stem of its file alone. Files
with the same stem therefore have one target, and the last result written to it stays. Main
statement: every result can be read from the file that was reported for it exactly if results with
one target are the same, and this is so if no two files have the same stem (`outputs_kept_iff`).
-/

namespace TriggerDialect

open List
open Workspace (access)

namespace FileName

theorem noSlash_of_last? {name part around : String} (h : last? name = some (part, around)) :
    '/' ∉ part.toList := by
  unfold last? at h
  simp only at h
  split at h
  · cases h
  · cases h
    intro hmem
    simp only [String.toList_ofList, mem_reverse] at hmem
    simpa using all_eq_true.1 all_takeWhile _ hmem

theorem noSlash_of_stem? {name stem : String} (h : stem? name = some stem) : '/' ∉ stem.toList := by
  unfold stem? at h
  split at h
  · cases h
  next part around hlast =>
    have hpart := noSlash_of_last? hlast
    split at h
    · cases h
    · simp only at h
      split at h
      · cases h
        exact hpart
      next point before hbefore =>
        split at h
        · cases h
          exact hpart
        · cases h
          intro hmem
          have hsub := dropWhile_sublist (fun c => c != '.') (l := part.toList.reverse)
          rw [hbefore] at hsub
          simp only [String.toList_ofList, mem_reverse] at hmem
          exact hpart (mem_reverse.1 (hsub.subset (.tail _ hmem)))

end FileName

namespace CommandLine

variable {file : String} {conversion : Conversion} {failure : Failure} (names rest : List String)

/-- The name of the file for a result, inside the directory for results. -/
def outputName (file : String) : String := (FileName.stem? file).getD "trigger" ++ ".sql"

theorem targetName_eq (directory file : String) :
    targetName directory file = FileName.join directory (outputName file) := rfl

theorem isPlain_outputName (file : String) : FileName.IsPlain (outputName file) := by
  have hlength : 4 ≤ (outputName file).toList.length := by simp [outputName]
  refine ⟨?_, ?_, ?_, ?_⟩
  · have hstem : '/' ∉ ((FileName.stem? file).getD "trigger").toList := by
      cases hstem : FileName.stem? file with
      | none => decide
      | some stem => exact FileName.noSlash_of_stem? hstem
    simpa [outputName] using hstem
  all_goals
    intro h
    rw [h] at hlength
    revert hlength
    decide

/-- The target of a result shows the name of its file. -/
theorem outputName_eq_of_targetName_eq {directory other : String}
    (h : targetName directory file = targetName directory other) :
    outputName file = outputName other := by
  obtain ⟨front, _, hjoin⟩ := FileName.exists_parts_join directory
  have hfile := (hjoin _ (isPlain_outputName file)).1
  have hother := (hjoin _ (isPlain_outputName other)).1
  rw [targetName_eq, targetName_eq] at h
  rw [h] at hfile
  simpa using hfile.symm.trans hother

/-! ### Sessions in a workspace -/

section Sessions

variable {α β : Type}

/-- A session carried out in a workspace: its result, what is printed, and the workspace after it.
-/
def carryOut (session : Session (StateM Workspace) α) (console : Console) (ws : Workspace) :
    (Except Failure α × Console) × Workspace := (session.run.run console).run ws

theorem carryOut_bind (session : Session (StateM Workspace) α)
    (next : α → Session (StateM Workspace) β) (console : Console) (ws : Workspace) :
    carryOut (session >>= next) console ws =
      match carryOut session console ws with
      | ((.ok a, console), ws) => carryOut (next a) console ws
      | ((.error failure, console), ws) => ((.error failure, console), ws) := by
  simp only [carryOut, ExceptT.run_bind, StateT.run_bind]
  rcases (session.run.run console).run ws with ⟨⟨result, printed⟩, after⟩
  cases result with
  | ok a => rfl
  | error failure => rfl

theorem carryOut_onFiles (action : StateM Workspace α) (console : Console) (ws : Workspace) :
    carryOut (onFiles action) console ws =
      ((.ok (action.run ws).1, console), (action.run ws).2) := rfl

theorem carryOut_attempt {ε : Type} (failure : ε → Failure) (action : StateM Workspace (Except ε α))
    (console : Console) (ws : Workspace) :
    carryOut (attempt failure action) console ws =
      (((action.run ws).1.mapError failure, console), (action.run ws).2) := by
  rw [attempt, carryOut_bind, carryOut_onFiles]
  rcases action.run ws with ⟨result, after⟩
  cases result with
  | ok a => rfl
  | error fault => rfl

end Sessions

/-! ### The course of a run -/

/-- A result that was put into the directory for results. -/
structure Delivery where
  file : String
  sql : String
deriving Repr, DecidableEq

/-- The file that took a result. -/
def Delivery.target (directory : String) (d : Delivery) : String := targetName directory d.file

/-- The line that reports a result as written. -/
def Delivery.notice (directory : String) (d : Delivery) : String :=
  "wrote " ++ d.target directory ++ "\n"

/-- How a run over files goes. -/
structure Course where
  /-- The results, in the order in which they were written. -/
  deliveries : List Delivery
  /-- Why the run ended early, if it did. -/
  stop : Option Failure
  /-- The workspace after the run. -/
  after : Workspace

variable (mapping : Mapping) (options : Options) (directory : String) (quiet : Bool)

/-- What becomes of a file as it stands in a workspace. -/
def outcomeIn (ws : Workspace) (file : String) : Except Failure Conversion :=
  match ws.read file with
  | .error fault => .error (.reading file fault)
  | .ok source => (convert mapping options source).mapError .source

/-- What one file does to the course of a run that goes on with `later`. What cannot be read or
converted is passed over; a result that cannot be written ends the run. -/
def advance (file : String) (later : Workspace → Course) (ws : Workspace) : Course :=
  match outcomeIn mapping options ws file with
  | .error _ => later ws
  | .ok conversion =>
    match ws.write (targetName directory file) conversion.sql with
    | .error fault => ⟨[], some (.writing (targetName directory file) fault), ws⟩
    | .ok ws => { later ws with deliveries := ⟨file, conversion.sql⟩ :: (later ws).deliveries }

/-- The course of a run over files. -/
def course (names : List String) : Workspace → Course :=
  names.foldr (advance mapping options directory) fun ws => ⟨[], none, ws⟩

/-- The course of a run that makes the directory first. -/
def wholeCourse (names : List String) (ws : Workspace) : Course :=
  match ws.makeDirectories directory with
  | (ws, .error fault) => ⟨[], some (.creating directory fault), ws⟩
  | (ws, .ok ()) => course mapping options directory names ws

/-- A session that starts with a console takes a course. -/
structure Takes {α : Type} (console : Console) (c : Course)
    (ending : (Except Failure α × Console) × Workspace) : Prop where
  after : ending.2 = c.after
  stop : c.stop = match ending.1.1 with
    | .ok _ => none
    | .error failure => some failure
  kept : console.errors.toList <+: ending.1.2.errors.toList
  reported : ∀ d ∈ c.deliveries, (d.notice directory).toList <:+: ending.1.2.errors.toList

variable {mapping options directory quiet} {ws ws' : Workspace} {console : Console}

theorem run_convertText (ws : Workspace) (file : String) :
    (convertText access mapping options file).run ws =
      (outcomeIn mapping options ws file, ws) := by
  have hread : (access.read file).run ws = (ws.read file, ws) := rfl
  rw [convertText, StateT.run_bind, hread, outcomeIn]
  cases ws.read file with
  | error fault => rfl
  | ok source => rfl

theorem carryOut_deliver (file sql : String) (console : Console) (ws : Workspace) :
    carryOut (deliver access (some directory) file sql) console ws =
      match ws.write (targetName directory file) sql with
      | .error fault => ((.error (.writing (targetName directory file) fault), console), ws)
      | .ok ws => ((.ok (), { console with
          errors := console.errors ++ Delivery.notice directory ⟨file, sql⟩ }), ws) := by
  have hwrite : (access.write (targetName directory file) sql).run ws =
      match ws.write (targetName directory file) sql with
      | .error fault => (.error fault, ws)
      | .ok ws => (.ok (), ws) := by
    simp only [access]
    cases h : ws.write (targetName directory file) sql <;> simp [h] <;> rfl
  rw [deliver, carryOut_bind, carryOut_attempt, hwrite]
  cases ws.write (targetName directory file) sql with
  | error fault => rfl
  | ok after => rfl

/-- A file that cannot be converted changes no file and does not end the run. -/
theorem carryOut_convertFile_failed (h : outcomeIn mapping options ws file = .error failure) :
    carryOut (convertFile access mapping options (some directory) .sql quiet file)
        console ws =
      ((.ok ⟨file, .error failure⟩, { console with
        errors := console.errors ++ ("error: " ++ file ++ ": " ++ failure.message ++ "\n") }),
        ws) := by
  rw [convertFile, carryOut_bind, carryOut_onFiles, run_convertText, h]
  rfl

/-- What is printed about the diagnostics of a file. -/
def remarks (quiet : Bool) (file : String) (conversion : Conversion) : String :=
  if quiet then "" else Text.join "" (conversion.diagnostics.map (diagnosticLine file))

theorem carryOut_convertFile (h : outcomeIn mapping options ws file = .ok conversion) :
    carryOut (convertFile access mapping options (some directory) .sql quiet file)
        console ws =
      let printed := { console with errors := console.errors ++ remarks quiet file conversion }
      match ws.write (targetName directory file) conversion.sql with
      | .error fault => ((.error (.writing (targetName directory file) fault), printed), ws)
      | .ok ws => ((.ok ⟨file, .ok conversion⟩, { printed with
          errors := printed.errors ++ Delivery.notice directory ⟨file, conversion.sql⟩ }), ws) := by
  have hsay : ∀ next : Session (StateM Workspace) FileReport,
      carryOut (do unless quiet do complainAbout file conversion.diagnostics
                   next) console ws =
        carryOut next { console with errors := console.errors ++ remarks quiet file conversion }
          ws := by
    intro next
    cases quiet with
    | true => simp [remarks]
    | false => rfl
  rw [convertFile, carryOut_bind, carryOut_onFiles, run_convertText, h]
  simp only [hsay, if_true]
  rw [carryOut_bind, carryOut_deliver]
  cases ws.write (targetName directory file) conversion.sql with
  | error fault => rfl
  | ok after => rfl

theorem course_failed (h : outcomeIn mapping options ws file = .error failure) :
    course mapping options directory (file :: rest) ws =
      course mapping options directory rest ws := by
  rw [course, foldr_cons, advance, h]
  rfl

theorem course_stopped {fault : FileFault} (h : outcomeIn mapping options ws file = .ok conversion)
    (hwrite : ws.write (targetName directory file) conversion.sql = .error fault) :
    course mapping options directory (file :: rest) ws =
      ⟨[], some (.writing (targetName directory file) fault), ws⟩ := by
  rw [course, foldr_cons, advance, h]
  simp only [hwrite]

theorem course_delivered (h : outcomeIn mapping options ws file = .ok conversion)
    (hwrite : ws.write (targetName directory file) conversion.sql = .ok ws') :
    course mapping options directory (file :: rest) ws =
      { course mapping options directory rest ws' with
        deliveries := ⟨file, conversion.sql⟩ ::
          (course mapping options directory rest ws').deliveries } := by
  rw [course, foldr_cons, advance, h]
  simp only [hwrite]
  rfl

/-- What a course does to the files: results are written one after the other. -/
inductive Passage (directory : String) : List String → Workspace → Course → Prop
  | done (ws : Workspace) : Passage directory [] ws ⟨[], none, ws⟩
  | passed {rest : List String} {ws : Workspace} {c : Course} (file : String)
      (later : Passage directory rest ws c) : Passage directory (file :: rest) ws c
  | stopped (names : List String) (ws : Workspace) (failure : Failure) :
      Passage directory names ws ⟨[], some failure, ws⟩
  | delivered {file sql : String} {rest : List String} {ws ws' : Workspace} {c : Course}
      (written : ws.write (targetName directory file) sql = .ok ws')
      (later : Passage directory rest ws' c) :
      Passage directory (file :: rest) ws { c with deliveries := ⟨file, sql⟩ :: c.deliveries }

theorem course_passage (ws : Workspace) :
    Passage directory names ws (course mapping options directory names ws) := by
  induction names generalizing ws with
  | nil => exact .done ws
  | cons file rest ih =>
    cases houtcome : outcomeIn mapping options ws file with
    | error failure =>
      rw [course_failed rest houtcome]
      exact .passed file (ih ws)
    | ok conversion =>
      cases hwrite : ws.write (targetName directory file) conversion.sql with
      | error fault =>
        rw [course_stopped rest houtcome hwrite]
        exact .stopped _ ws _
      | ok after =>
        rw [course_delivered rest houtcome hwrite]
        exact .delivered hwrite (ih after)

/-- A run that cannot make the directory delivers nothing; any other goes through its files. -/
theorem wholeCourse_passage (ws : Workspace) :
    Passage directory names (ws.makeDirectories directory).1
      (wholeCourse mapping options directory names ws) := by
  unfold wholeCourse
  split
  next made fault hmake =>
    rw [hmake]
    exact .stopped names made _
  next made hmake =>
    rw [hmake]
    exact course_passage names made

namespace Takes

variable {α β : Type} {c : Course} {printed : Console}
  {ending : (Except Failure α × Console) × Workspace}

theorem of_front (h : Takes directory printed c ending)
    (hprinted : console.errors.toList <+: printed.errors.toList) :
    Takes directory console c ending :=
  ⟨h.after, h.stop, hprinted.trans h.kept, h.reported⟩

theorem cons {d : Delivery} (h : Takes directory printed c ending)
    (hd : (d.notice directory).toList <:+: printed.errors.toList) :
    Takes directory printed { c with deliveries := d :: c.deliveries } ending :=
  ⟨h.after, h.stop, h.kept, forall_mem_cons.2 ⟨hd.trans h.kept.isInfix, h.reported⟩⟩

/-- What only prints something more takes the same course. -/
theorem bind {session : Session (StateM Workspace) α} {next : α → Session (StateM Workspace) β}
    (h : Takes directory console c (carryOut session console ws))
    (hnext : ∀ a printed ws, ∃ b more, carryOut (next a) printed ws =
      ((.ok b, { printed with errors := printed.errors ++ more }), ws)) :
    Takes directory console c (carryOut (session >>= next) console ws) := by
  obtain ⟨hafter, hstop, hkept, hreported⟩ := h
  rw [carryOut_bind]
  rcases hrun : carryOut session console ws with ⟨⟨result, printed⟩, after⟩
  rw [hrun] at hafter hstop hkept hreported
  cases result with
  | error failure => exact ⟨hafter, hstop, hkept, hreported⟩
  | ok a =>
    obtain ⟨b, more, hmore⟩ := hnext a printed after
    have hfront : printed.errors.toList <+: (printed.errors ++ more).toList := by simp
    simp only [hmore]
    exact ⟨hafter, hstop, hkept.trans hfront,
      fun d hd => (hreported d hd).trans hfront.isInfix⟩

end Takes

/-- A run over files takes its course. -/
theorem takes_mapM (console : Console) (ws : Workspace) :
    Takes directory console (course mapping options directory names ws)
      (carryOut (names.mapM (convertFile access mapping options (some directory) .sql quiet))
        console ws) := by
  induction names generalizing console ws with
  | nil => exact ⟨rfl, rfl, prefix_rfl, forall_mem_nil _⟩
  | cons file rest ih =>
    have hreport : ∀ (report : FileReport) (reports : List FileReport) (printed : Console)
        (ws : Workspace), ∃ b more, carryOut (pure (report :: reports)) printed ws =
          ((.ok b, { printed with errors := printed.errors ++ more }), ws) :=
      fun report reports printed ws => ⟨report :: reports, "", by rw [String.append_empty]; rfl⟩
    rw [mapM_cons, carryOut_bind]
    cases houtcome : outcomeIn mapping options ws file with
    | error failure =>
      rw [carryOut_convertFile_failed houtcome, course_failed rest houtcome]
      exact ((ih _ ws).bind (hreport _)).of_front (by simp)
    | ok conversion =>
      rw [carryOut_convertFile houtcome]
      cases hwrite : ws.write (targetName directory file) conversion.sql with
      | error fault =>
        rw [course_stopped rest houtcome hwrite]
        exact ⟨rfl, rfl, by simp, forall_mem_nil _⟩
      | ok after =>
        rw [course_delivered rest houtcome hwrite]
        refine (((ih _ after).bind (hreport _)).cons ?_).of_front (by simp)
        exact ⟨(console.errors ++ remarks quiet file conversion).toList, [], by simp⟩

/-- A run that converts files into a directory takes its course. -/
theorem takes_convertFiles (time : String) (names : List String) (console : Console)
    (ws : Workspace) :
    Takes directory console (wholeCourse mapping options directory names ws)
      (carryOut (convertFiles access time mapping options names (some directory) .sql
        quiet) console ws) := by
  have hmake : (access.makeDirectories directory).run ws =
      ((ws.makeDirectories directory).2, (ws.makeDirectories directory).1) := rfl
  rw [convertFiles, wholeCourse, carryOut_bind, carryOut_attempt, hmake]
  rcases ws.makeDirectories directory with ⟨made, result⟩
  cases result with
  | error fault => exact ⟨rfl, rfl, prefix_rfl, forall_mem_nil _⟩
  | ok =>
    refine (takes_mapM names console made).bind fun reports printed after => ?_
    exact ⟨_, summary reports, rfl⟩

/-! ### What the directory holds -/

theorem exists_last {α : Type} (key : α → String) {xs : List α} {x : α} (h : x ∈ xs) :
    ∃ front y later, xs = front ++ y :: later ∧ key y = key x ∧ ∀ z ∈ later, key z ≠ key x := by
  induction xs generalizing x with
  | nil => cases h
  | cons first xs ih =>
    by_cases hlater : ∃ z ∈ xs, key z = key x
    · obtain ⟨z, hz, hkey⟩ := hlater
      obtain ⟨front, y, later, rfl, hy, hlast⟩ := ih hz
      exact ⟨first :: front, y, later, rfl, hy.trans hkey, hkey ▸ hlast⟩
    · simp only [not_exists, not_and] at hlater
      rcases mem_cons.1 h with rfl | hx
      · exact ⟨[], x, xs, rfl, rfl, hlater⟩
      · exact absurd rfl (hlater x hx)

namespace Passage

variable {names : List String} {c : Course} (h : Passage directory names ws c)

include h

/-- A file of the directory that takes no result stays as it is. -/
theorem read_other {name held : String}
    (hname : FileName.IsPlain name) (hheld : ws.read (FileName.join directory name) = .ok held)
    (hother : ∀ d ∈ c.deliveries, outputName d.file ≠ name) :
    c.after.read (FileName.join directory name) = .ok held := by
  induction h with
  | done | stopped => exact hheld
  | passed file later ih => exact ih hheld hother
  | @delivered file sql rest ws ws' c written later ih =>
    obtain ⟨hfile, hrest⟩ := forall_mem_cons.1 hother
    exact ih (Workspace.read_write_of_ne (isPlain_outputName file) hname hfile written hheld) hrest

/-- The last result written to a target stays there. -/
theorem read_last {front later : List Delivery} {d : Delivery}
    (hd : c.deliveries = front ++ d :: later)
    (hlast : ∀ e ∈ later, e.target directory ≠ d.target directory) :
    c.after.read (d.target directory) = .ok d.sql := by
  induction h generalizing front with
  | done | stopped => cases front <;> cases hd
  | passed file later ih => exact ih hd
  | @delivered file sql rest ws ws' c written passage ih =>
    cases front with
    | nil =>
      obtain ⟨rfl, rfl⟩ := cons.inj hd
      refine passage.read_other (isPlain_outputName file) (Workspace.read_write written) ?_
      exact fun e he hsame => hlast e he (congrArg (FileName.join directory) hsame)
    | cons first front => exact ih (cons.inj hd).2

theorem files_sublist : (c.deliveries.map Delivery.file).Sublist names := by
  induction h with
  | done | stopped => exact nil_sublist _
  | passed file later ih => exact ih.cons file
  | delivered written later ih => exact ih.cons_cons _

/-- Everything written can be read exactly if what was written to one target is the same. -/
theorem all_kept_iff :
    (∀ d ∈ c.deliveries, c.after.read (d.target directory) = .ok d.sql) ↔
      ∀ d ∈ c.deliveries, ∀ e ∈ c.deliveries,
        d.target directory = e.target directory → d.sql = e.sql := by
  constructor
  · intro hkept d hd e he htarget
    have hread := hkept e he
    rw [← htarget, hkept d hd] at hread
    exact Except.ok.inj hread
  · intro hsame d hd
    obtain ⟨front, e, later, hsplit, htarget, hlast⟩ := exists_last (Delivery.target directory) hd
    have he : e ∈ c.deliveries := by simp [hsplit]
    rw [← htarget, h.read_last hsplit (htarget ▸ hlast), hsame d hd e he htarget.symm]

end Passage

/-- In a run that converts files into a directory, every result is reported with the file that took
it. All of them can be read from these files after the run exactly if results that went to the same
file are the same; this is so if all files have different stems. -/
theorem outputs_kept_iff (mapping : Mapping) (options : Options) (directory time : String)
    (quiet : Bool) (names : List String) (console : Console) (ws : Workspace) :
    let run := carryOut (convertFiles access time mapping options names (some directory)
      .sql quiet) console ws
    let c := wholeCourse mapping options directory names ws
    Takes directory console c run ∧
      ((∀ d ∈ c.deliveries, run.2.read (d.target directory) = .ok d.sql) ↔
        ∀ d ∈ c.deliveries, ∀ e ∈ c.deliveries,
          d.target directory = e.target directory → d.sql = e.sql) ∧
      ((names.map outputName).Nodup →
        ∀ d ∈ c.deliveries, run.2.read (d.target directory) = .ok d.sql) := by
  intro run c
  have htakes : Takes directory console c run := takes_convertFiles time names console ws
  have hpassage : Passage directory names _ c := wholeCourse_passage names ws
  rw [htakes.after]
  refine ⟨htakes, hpassage.all_kept_iff, fun hnodup => hpassage.all_kept_iff.2 ?_⟩
  intro d hd e he htarget
  have hdistinct : (c.deliveries.map fun d => outputName d.file).Nodup := by
    have hsublist := (hpassage.files_sublist.map outputName).nodup hnodup
    rwa [map_map] at hsublist
  rw [inj_on_of_nodup_map hdistinct hd he (outputName_eq_of_targetName_eq htarget)]

/-- Two files with the same stem. -/
def twins : Workspace :=
  .ofFiles "/work" [("a/x.sql", "BEGIN NULL; END;"), ("b/x.sql", "BEGIN RETURN; END;")]

/-- Both results are reported, but the second one took the place of the first, which is in no file
any more. -/
theorem outputs_twins :
    let ending := (run access (some "/work/home") none ""
      ["translate", "a/x.sql", "b/x.sql", "-o", "out"]).run twins
    ending.1 = ⟨0, "", "wrote out/x.sql\nwrote out/x.sql\n✓ 2 translated, 0 failed\n"⟩ ∧
      (convert .oracle .standard "BEGIN NULL; END;").toOption.map Conversion.sql =
        some "BEGIN\n    NULL;\nEND;\n" ∧
      (ending.2.read "out/x.sql").toOption = some "BEGIN\n    RETURN;\nEND;\n" ∧
      ∀ file ∈ ending.2.files, file.2 ≠ "BEGIN\n    NULL;\nEND;\n" := by
  decide +kernel

end CommandLine

end TriggerDialect
