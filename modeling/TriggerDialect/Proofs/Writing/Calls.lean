import TriggerDialect.Generate.Statements
import TriggerDialect.Proofs.Mapping.Expansion

/-!
# Calls as statements

A call statement is written by the template of its procedure if it has the arguments for it, and
with `PERFORM` and its own name otherwise.
-/

namespace TriggerDialect.Generate

variable {scope : Scope} {path name text : String} {arguments : List Fragment} {offset : Nat}
  {template : Template}

/-- The arguments of a call statement as they are put into the template. -/
def callTexts (scope : Scope) (path : String) (arguments : List Fragment) : List String :=
  arguments.map fun argument => (scope.recast (some path) argument).text

/-- The line of an expanded template. -/
def expandedLine (text : String) : String :=
  if isStatementText text then text ++ ";" else "PERFORM " ++ text ++ ";"

/-- The line of a call that stays. -/
def performLine (name : String) (texts : List String) : String :=
  "PERFORM " ++ name ++ "(" ++ Text.join ", " texts ++ ");"

theorem callLine_of_expand? (hfound : scope.mapping.function? name = some template)
    (htext : template.expand? (callTexts scope path arguments) = some text) :
    callLine scope path name arguments offset =
      ⟨[.line (expandedLine text)],
        arguments.flatMap fun argument => (scope.recast (some path) argument).findings⟩ := by
  have htexts : (arguments.map (scope.recast (some path))).map Draft.text =
      callTexts scope path arguments := List.map_map
  simp only [callLine, hfound, htexts, htext, List.flatMap_map]
  rfl

theorem steps_callLine_of_not_isServedBy (hfound : scope.mapping.function? name = some template)
    (hserved : template.isServedBy arguments.length = false) :
    (callLine scope path name arguments offset).steps =
      [.line (performLine name (callTexts scope path arguments))] := by
  have htexts : (arguments.map (scope.recast (some path))).map Draft.text =
      callTexts scope path arguments := List.map_map
  have hnone : template.expand? (callTexts scope path arguments) = none := by
    rw [Template.expand?_eq, callTexts, List.length_map, hserved, if_neg Bool.false_ne_true]
  simp only [callLine, hfound, htexts, hnone]
  rfl

end TriggerDialect.Generate
