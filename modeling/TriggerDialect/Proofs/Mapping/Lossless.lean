import TriggerDialect.Proofs.Mapping.Tables
import TriggerDialect.Proofs.Toml.Documents

/-!
# The file of a mapping holds the whole mapping

Main statement: the mappings that can be built are exactly those that are read back from their own
files (`Mapping.reachable_iff_readBack`).
-/

namespace TriggerDialect.Mapping

open Toml Option

variable {m : Mapping}

/-! ### The document -/

/-- The lines of the file of a mapping. -/
def fileLines (m : Mapping) : List Expression :=
  .pair [] "extends_defaults" (.boolean false) ::
    (tableLines "types" (sources m.types) ++ (tableLines "functions" (sources m.functions) ++
      tableLines "exceptions" m.exceptions.entries))

theorem toList_toToml (m : Mapping) :
    m.toToml.toList = "extends_defaults".toList ++ ' ' :: '=' :: ' ' :: ("false".toList ++
      '\n' :: '\n' :: ((tableText "types" (sources m.types)).toList ++
        '\n' :: ((tableText "functions" (sources m.functions)).toList ++
          '\n' :: (tableText "exceptions" m.exceptions.entries).toList))) := by
  simp [toToml, Text.join, sources]

theorem lines_toToml (m : Mapping) : Lines m.toToml.toList m.fileLines := by
  have hexceptions := Lines.nil.tableText "exceptions" (by decide) (by decide) m.exceptions.entries
  simp only [List.append_nil] at hexceptions
  have hfunctions :=
    hexceptions.blank.tableText "functions" (by decide) (by decide) (sources m.functions)
  have htypes := hfunctions.blank.tableText "types" (by decide) (by decide) (sources m.types)
  have hline := expression?_boolean "extends_defaults" (by decide) (by decide)
  have hstart : "extends_defaults".toList = 'e' :: "xtends_defaults".toList := rfl
  simp only [hstart, List.cons_append] at hline
  rw [toList_toToml, hstart, List.cons_append]
  refine .cons rfl (hline _) ?_ htypes.blank
  simp only [List.length_append, List.length_cons]
  omega

/-- The table that the file of a mapping describes. -/
def fileEntries (m : Mapping) : List (String × Value) :=
  [("extends_defaults", .boolean false),
    ("types", .table (entryValues (textItems (sources m.types)))),
    ("functions", .table (entryValues (textItems (sources m.functions)))),
    ("exceptions", .table (entryValues (textItems m.exceptions.entries)))]

theorem build_fileLines (h : m.Normal) : build m.fileLines = some (.table m.fileEntries) := by
  have hdistinct {entries : List (String × String)} (hsorted : Table.Sorted entries) :
      entries.Pairwise (·.1 ≠ ·.1) := by
    refine hsorted.imp fun hlt heq => ?_
    rw [heq] at hlt
    exact String.lt_irrefl _ hlt
  have htypes := hdistinct (sorted_sources h.types.sorted)
  have hfunctions := hdistinct (sorted_sources h.functions.sorted)
  have hexceptions := hdistinct h.exceptions.sorted
  have hfirst : buildFrom [] [] m.fileLines =
      buildFrom [] [("extends_defaults", .value (.boolean false))] m.fileLines.tail := rfl
  rw [build, hfirst, fileLines, List.tail_cons, buildFrom_tableLines rfl htypes,
    buildFrom_tableLines rfl hfunctions, ← List.append_nil (tableLines "exceptions" _),
    buildFrom_tableLines rfl hexceptions]
  rfl

theorem read_toToml (h : m.Normal) : Toml.read m.toToml = some (.table m.fileEntries) := by
  have hmark : skipMark m.toToml.toList = m.toToml.toList := by
    rw [toList_toToml]
    rfl
  rw [Toml.read, hmark]
  simp [lines_toToml m _ (Nat.lt_succ_self _), build_fileLines h]

/-- A normal mapping is read back from its file. -/
theorem Normal.ofToml?_toToml (h : m.Normal) : ofToml? m.toToml = some m := by
  simp only [ofToml?, read_toToml h, bind_eq_bind, bind_some, Value.entries?]
  have hflag : Toml.fallback m.fileEntries "extends_defaults" true Value.bool? = some false := rfl
  have htypes : Toml.fallback m.fileEntries "types" [] Value.texts? = some (sources m.types) :=
    texts?_textItems _
  have hfunctions :
      Toml.fallback m.fileEntries "functions" [] Value.texts? = some (sources m.functions) :=
    texts?_textItems _
  have hexceptions :
      Toml.fallback m.fileEntries "exceptions" [] Value.texts? = some m.exceptions.entries :=
    texts?_textItems _
  simp [hflag, htypes, hfunctions, hexceptions, h.ofEntries]

/-- What is read from a file is a mapping that can be built. -/
theorem reachable_of_ofToml? {text : String} (h : ofToml? text = some m) : m.Reachable := by
  simp only [ofToml?, bind_eq_bind, bind_eq_some_iff, pure_def, some.injEq] at h
  obtain ⟨document, -, entries, -, flag, -, types, -, functions, -, exceptions, -, rfl⟩ := h
  exact .ofEntries flag types functions exceptions

/-- The mappings that can be built are those that are read back from their files. Each of them is in
order, with keys that are their own keys. -/
theorem reachable_iff_readBack (m : Mapping) :
    (m.Reachable ↔ ofToml? m.toToml = some m) ∧ (m.Reachable → m.Normal) :=
  ⟨⟨fun h => h.normal.ofToml?_toToml, reachable_of_ofToml?⟩, Reachable.normal⟩

/-- A mapping whose texts take every kind of string. -/
def strangeTexts : Mapping :=
  (((empty.insertType " a.b" "plain").insertType "\"c\\" "it's \"so\"").insertFunction "d'\"\t"
    "\"\"\"\n'''\\").insertException "" "\r\n"

/-- It is read back with quotes, backslashes and line ends in keys and texts. -/
theorem strangeTexts_readBack :
    strangeTexts.Reachable ∧ ofToml? strangeTexts.toToml = some strangeTexts := by
  have h : strangeTexts.Reachable :=
    .insertException (.insertFunction (.insertType (.insertType .empty _ _) _ _) _ _) _ _
  exact ⟨h, (reachable_iff_readBack strangeTexts).1.1 h⟩

end TriggerDialect.Mapping
