/-!
# File names

Names of files are texts with parts between slashes. Repeated slashes and parts `.` count for
nothing, except that a relative name may start with `.`.
-/

namespace TriggerDialect.FileName

/-- The parts of a name between its slashes. -/
def split : List Char → List (List Char)
  | [] => [[]]
  | c :: rest =>
    match split rest with
    | [] => [[c]]
    | part :: parts => if c = '/' then [] :: part :: parts else (c :: part) :: parts

/-- The parts of a name between its slashes. -/
def parts (name : String) : List String := (split name.toList).map String.ofList

/-- Whether a name starts at the root. -/
def isAbsolute (name : String) : Bool := name.toList.head? == some '/'

/-- A reversed name without the slashes and the parts `.` at its end. The root stays. -/
def trimBack : List Char → List Char
  | '/' :: rest => if rest.isEmpty then ['/'] else trimBack rest
  | '.' :: '/' :: rest => if rest.isEmpty then ['/'] else trimBack rest
  | cs => cs

/-- The last part of a name and the name of the directory around it. The root and the empty name
have none. -/
def last? (name : String) : Option (String × String) :=
  let cs := trimBack name.toList.reverse
  if cs.isEmpty || cs == ['/'] then none
  else
    let part := cs.takeWhile (· != '/')
    let around := trimBack (cs.dropWhile (· != '/'))
    some (String.ofList part.reverse, String.ofList around.reverse)

/-- The directory around a name. -/
def parent? (name : String) : Option String := (last? name).map Prod.snd

/-- The last part without what follows its last point. A point at the start does not count. -/
def stem? (name : String) : Option String :=
  match last? name with
  | none => none
  | some (part, _) =>
    if part == "." || part == ".." then none
    else
      let cs := part.toList.reverse
      match cs.dropWhile (· != '.') with
      | [] => some part
      | _ :: before => if before.isEmpty then some part else some (String.ofList before.reverse)

/-- A name inside a directory. An absolute name stands for itself. -/
def join (directory name : String) : String :=
  if isAbsolute name || directory.isEmpty then name
  else if directory.toList.getLast? == some '/' then directory ++ name
  else directory ++ "/" ++ name

end TriggerDialect.FileName
