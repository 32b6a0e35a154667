import TriggerDialect.Workspace.Basic

/-!
# Reading after writing

What is written to a file is read from it until the file is written again. Names in one directory
lead to places that differ as the names do, so a write to one of them leaves the others alone. Main
statements: `read_write` and `read_write_of_ne`.
-/

namespace TriggerDialect

open List

/-! ### Names in a directory -/

namespace FileName

variable {front name : String}

/-- A name with a single part, which names something in the directory it is looked up in. -/
structure IsPlain (name : String) : Prop where
  noSlash : '/' ∉ name.toList
  notEmpty : name ≠ ""
  notHere : name ≠ "."
  notOutward : name ≠ ".."

theorem split_ne_nil (cs : List Char) : split cs ≠ [] := by
  cases cs with
  | nil => simp [split]
  | cons c rest =>
    unfold split
    split
    · simp
    · split <;> simp

/-- Parts end at each slash. -/
theorem split_slash (front back : List Char) :
    split (front ++ '/' :: back) = split front ++ split back := by
  induction front with
  | nil =>
    obtain ⟨part, parts, hback⟩ := exists_cons_of_ne_nil (split_ne_nil back)
    simp [split, hback]
  | cons c front ih =>
    obtain ⟨part, parts, hfront⟩ := exists_cons_of_ne_nil (split_ne_nil front)
    rw [cons_append, split, ih, split, hfront]
    simp only [cons_append]
    split <;> rfl

theorem split_of_noSlash {cs : List Char} (h : '/' ∉ cs) : split cs = [cs] := by
  induction cs with
  | nil => rfl
  | cons c rest ih =>
    simp only [mem_cons, not_or] at h
    rw [split, ih h.2]
    simp [Ne.symm h.1]

theorem parts_slash (h : IsPlain name) : parts (front ++ "/" ++ name) = parts front ++ [name] := by
  have htext : (front ++ "/" ++ name).toList = front.toList ++ '/' :: name.toList := by simp
  rw [parts, htext, split_slash, split_of_noSlash h.noSlash]
  simp [parts]

theorem isAbsolute_append (h : front ≠ "") (back : String) :
    isAbsolute (front ++ back) = isAbsolute front := by
  have hne : front.toList ≠ [] := by simpa using h
  obtain ⟨c, cs, hfront⟩ := exists_cons_of_ne_nil hne
  simp [isAbsolute, hfront]

theorem IsPlain.isAbsolute_eq (h : IsPlain name) : isAbsolute name = false := by
  rw [isAbsolute, beq_eq_false_iff_ne]
  exact fun hhead => h.noSlash (mem_of_head? hhead)

/-- A plain name is the last part of its place in a directory, after parts of the directory alone.
-/
theorem exists_parts_join (directory : String) :
    ∃ front absolute, ∀ name, IsPlain name →
      parts (join directory name) = front ++ [name] ∧
        isAbsolute (join directory name) = absolute ∧ (join directory name).isEmpty = false := by
  have hjoin : ∀ name, IsPlain name → join directory name =
      if directory.isEmpty then name
      else if directory.toList.getLast? == some '/' then directory ++ name
      else directory ++ "/" ++ name := by
    intro name h
    simp [join, h.isAbsolute_eq]
  by_cases hempty : directory = ""
  · refine ⟨[], false, fun name h => ?_⟩
    rw [hjoin name h, hempty]
    refine ⟨?_, h.isAbsolute_eq, by simpa using h.notEmpty⟩
    simp [parts, split_of_noSlash h.noSlash]
  have hisEmpty : directory.isEmpty = false := by simpa using hempty
  by_cases hlast : directory.toList.getLast? = some '/'
  · obtain ⟨front, hfront⟩ : ∃ front, directory = front ++ "/" := by
      obtain ⟨front, hfront⟩ := getLast?_eq_some_iff.1 hlast
      exact ⟨String.ofList front, String.toList_inj.1 (by simp [hfront])⟩
    refine ⟨parts front, isAbsolute directory, fun name h => ?_⟩
    rw [hjoin name h, hisEmpty, if_neg Bool.false_ne_true, if_pos (by simpa using hlast)]
    refine ⟨?_, isAbsolute_append hempty name, by simp [hempty]⟩
    rw [hfront]
    exact parts_slash h
  · refine ⟨parts directory, isAbsolute directory, fun name h => ?_⟩
    rw [hjoin name h, hisEmpty, if_neg Bool.false_ne_true, if_neg (by simpa using hlast)]
    refine ⟨parts_slash h, ?_, by simp [hempty]⟩
    rw [String.append_assoc]
    exact isAbsolute_append hempty _

end FileName

namespace Workspace

variable {ws ws' : Workspace} {name text : String} {there : Place}

/-! ### Places after a write -/

theorem lookup_map_put (files : List (Place × String)) (place other : Place) (text : String) :
    (files.map fun file => if file.1 == place then (place, text) else file).lookup other =
      if other = place then (files.lookup place).map fun _ => text else files.lookup other := by
  induction files with
  | nil => simp
  | cons file files ih =>
    obtain ⟨first, held⟩ := file
    rw [map_cons, lookup_cons, lookup_cons, lookup_cons, ih]
    by_cases hplace : first = place
    · by_cases hother : other = place
      · simp [hplace, hother]
      · have hne : (other == place) = false := beq_eq_false_iff_ne.2 hother
        simp [hplace, hother, hne]
    · have hfirst : (first == place) = false := beq_eq_false_iff_ne.2 hplace
      by_cases hother : other = place
      · have hne : (place == first) = false := beq_eq_false_iff_ne.2 (Ne.symm hplace)
        simp [hfirst, hother, hne]
      · simp [hfirst, hother]

/-- A text put at a place stands there, and nothing else has changed. -/
theorem lookup_put (ws : Workspace) (place other : Place) (text : String) :
    (ws.put place text).files.lookup other =
      if other = place then some text else ws.files.lookup other := by
  unfold put
  split
  next h =>
    obtain ⟨held, hheld⟩ := Option.isSome_iff_exists.1 h
    simp only [lookup_map_put, hheld, Option.map_some]
  next h =>
    have hnone : ws.files.lookup place = none := Option.not_isSome_iff_eq_none.1 h
    by_cases hother : other = place
    · subst hother
      simp [lookup_append, hnone]
    · have hne : (other == place) = false := beq_eq_false_iff_ne.2 hother
      simp [lookup_append, hother, hne, lookup_cons]

theorem directories_put (ws : Workspace) (place : Place) (text : String) :
    (ws.put place text).directories = ws.directories := by
  unfold put
  split <;> rfl

theorem name_put (ws : Workspace) (place : Place) (text : String) :
    (ws.put place text).name = ws.name := by
  unfold put
  split <;> rfl

theorem node?_put (ws : Workspace) (place other : Place) (text : String) :
    (ws.put place text).node? other =
      if ws.node? other = some .directory then some .directory
      else if other = place then some (.file text) else ws.node? other := by
  unfold node?
  rw [directories_put, lookup_put]
  split
  · simp
  · by_cases hother : other = place <;> simp [hother]

theorem follow_put {here : Place} {parts : List String} (place : Place) (text : String)
    (h : ws.follow here parts = .ok there) : (ws.put place text).follow here parts = .ok there := by
  induction parts generalizing here with
  | nil => exact h
  | cons part rest ih =>
    unfold follow at h ⊢
    split at h
    · cases h
    · cases h
    next hnode =>
      rw [node?_put, hnode]
      simp only [if_true]
      split at h
      next hskip =>
        rw [if_pos hskip]
        exact ih h
      next hskip =>
        rw [if_neg hskip]
        split at h
        next hout =>
          rw [if_pos hout]
          exact ih h
        next hout =>
          rw [if_neg hout]
          exact ih h

/-- A write leaves the places of all names as they are. -/
theorem place_put (place : Place) (text : String) (h : ws.place name = .ok there) :
    (ws.put place text).place name = .ok there := by
  unfold Workspace.place at h ⊢
  simp only [name_put] at h ⊢
  split at h
  · cases h
  next hempty =>
    rw [if_neg hempty]
    split at h
    next hown =>
      rw [if_pos hown]
      exact follow_put place text h
    next hown =>
      rw [if_neg hown]
      split at h
      next habsolute =>
        rw [if_pos habsolute]
        exact follow_put place text h
      next habsolute =>
        rw [if_neg habsolute]
        exact follow_put place text h

theorem write_eq_ok_iff :
    ws.write name text = .ok ws' ↔
      ∃ place, ws.place name = .ok place ∧ ws.node? place ≠ some .directory ∧
        ws' = ws.put place text := by
  unfold write
  cases hplace : ws.place name with
  | error fault => simp [bind, Except.bind]
  | ok place =>
    simp only [bind, Except.bind, Except.ok.injEq, exists_eq_left']
    split
    · simp_all
    · simp_all [eq_comm]

theorem read_eq_ok_iff :
    ws.read name = .ok text ↔
      ∃ place, ws.place name = .ok place ∧ ws.node? place = some (.file text) := by
  unfold read
  cases hplace : ws.place name with
  | error fault => simp [bind, Except.bind]
  | ok place =>
    simp only [bind, Except.bind, Except.ok.injEq, exists_eq_left']
    split <;> simp_all

/-- What was written is read. -/
theorem read_write (h : ws.write name text = .ok ws') : ws'.read name = .ok text := by
  obtain ⟨place, hplace, hnode, rfl⟩ := write_eq_ok_iff.1 h
  refine read_eq_ok_iff.2 ⟨place, place_put place text hplace, ?_⟩
  rw [node?_put, if_neg hnode, if_pos rfl]

/-! ### Two names in one directory -/

theorem follow_append (ws : Workspace) (here : Place) (front back : List String) :
    ws.follow here (front ++ back) = (ws.follow here front).bind (ws.follow · back) := by
  induction front generalizing here with
  | nil => rfl
  | cons part rest ih =>
    rw [cons_append, follow, follow]
    split
    · rfl
    · rfl
    · split
      · exact ih here
      · split
        · exact ih _
        · exact ih _

theorem follow_plain {here : Place} {front : List String} (hname : FileName.IsPlain name)
    (h : ws.follow here (front ++ [name]) = .ok there) :
    ∃ around, ws.follow here front = .ok around ∧ there = around ++ [name] := by
  rw [follow_append] at h
  cases hfront : ws.follow here front with
  | error fault =>
    rw [hfront] at h
    cases h
  | ok around =>
    rw [hfront] at h
    simp only [Except.bind, follow] at h
    split at h
    · cases h
    · cases h
    · simp only [hname.notEmpty, hname.notHere, hname.notOutward, beq_iff_eq, or_self, if_false,
        Bool.or_eq_true, Except.ok.injEq] at h
      exact ⟨around, rfl, h.symm⟩

/-- Plain names of a directory that lead to anything but directories lead into one directory. -/
theorem exists_around (ws : Workspace) (directory : String) :
    ∃ base : Except FileFault Place, ∀ name place, FileName.IsPlain name →
      ws.place (FileName.join directory name) = .ok place → ws.node? place ≠ some .directory →
        ∃ around, base = .ok around ∧ place = around ++ [name] := by
  obtain ⟨front, absolute, hjoin⟩ := FileName.exists_parts_join directory
  let own := FileName.parts ws.name
  refine ⟨if own <+: front then ws.follow [] (front.drop own.length)
    else if absolute then ws.follow ["/"] front else ws.follow [] front,
    fun name place hname hplace hnode => ?_⟩
  obtain ⟨hparts, habsolute, hempty⟩ := hjoin name hname
  unfold Workspace.place at hplace
  simp only [hparts, habsolute, hempty, isPrefixOf_iff_prefix, Bool.false_eq_true,
    if_false] at hplace
  split at hplace
  next hown =>
    rcases prefix_concat_iff.1 hown with heq | hfront
    · -- The name is that of the workspace itself, which is a directory.
      rw [heq, drop_length, follow] at hplace
      cases hplace
      exact absurd (by simp [node?, Place.isAround]) hnode
    · rw [drop_append_of_le_length hfront.length_le] at hplace
      rw [if_pos hfront]
      exact follow_plain hname hplace
  next hown =>
    rw [if_neg fun hfront => hown (hfront.trans (prefix_append _ _))]
    split at hplace
    next hroot =>
      rw [if_pos hroot]
      exact follow_plain hname hplace
    next hroot =>
      rw [if_neg hroot]
      exact follow_plain hname hplace

/-- A write to one file of a directory leaves the others as they are. -/
theorem read_write_of_ne {directory other held : String} (hname : FileName.IsPlain name)
    (hother : FileName.IsPlain other) (hne : name ≠ other)
    (h : ws.write (FileName.join directory name) text = .ok ws')
    (hheld : ws.read (FileName.join directory other) = .ok held) :
    ws'.read (FileName.join directory other) = .ok held := by
  obtain ⟨base, hbase⟩ := exists_around ws directory
  obtain ⟨place, hplace, hnode, rfl⟩ := write_eq_ok_iff.1 h
  obtain ⟨there, hthere, hfile⟩ := read_eq_ok_iff.1 hheld
  obtain ⟨around, haround, rfl⟩ := hbase name place hname hplace hnode
  obtain ⟨_, hsame, rfl⟩ := hbase other there hother hthere (by simp [hfile])
  cases haround.symm.trans hsame
  refine read_eq_ok_iff.2 ⟨_, place_put _ text hthere, ?_⟩
  rw [node?_put, if_neg (by simp [hfile]), if_neg (by simpa using Ne.symm hne), hfile]

end Workspace

end TriggerDialect
