/-!
# Access to files

What the program asks of the file system it runs in, and how that can fail.
-/

namespace TriggerDialect

/-- Why a file or directory could not be used. -/
inductive FileFault where
  | notFound
  | exists
  | notADirectory
  | isADirectory
  /-- The content is no text. -/
  | notText
  /-- Any other reason, in its own words. -/
  | other (reason : String)
deriving Repr, DecidableEq

/-- The wording of a fault. -/
def FileFault.message : FileFault → String
  | .notFound => "No such file or directory (os error 2)"
  | .exists => "File exists (os error 17)"
  | .notADirectory => "Not a directory (os error 20)"
  | .isADirectory => "Is a directory (os error 21)"
  | .notText => "stream did not contain valid UTF-8"
  | .other reason => reason

/-- The operations on files that the program uses, in a monad `m`. -/
structure FileAccess (m : Type → Type) where
  /-- The text of a file. -/
  read : String → m (Except FileFault String)
  /-- Whether there is a regular file of this name. -/
  isFile : String → m Bool
  /-- Makes a directory and those around it, as far as they are missing. -/
  makeDirectories : String → m (Except FileFault Unit)
  /-- Writes a file, which replaces one of the same name. -/
  write : String → String → m (Except FileFault Unit)

end TriggerDialect
