/-!
# Locations of files

A location is a text of pieces between slashes. Empty pieces and pieces `.` say nothing, but for a
leading slash, which makes it absolute, and a leading `.`, which is kept as it is.
-/

namespace Formals.Location

/-- The pieces of a location. -/
def pieces (text : String) : List String := text.splitOn "/"

/-- Whether a piece says nothing. -/
def isIdle (piece : String) : Bool := piece == "" || piece == "."

/-- Pieces without those at the end that say nothing. -/
def trimmed (ps : List String) : List String := (ps.reverse.dropWhile isIdle).reverse

/-- Whether a location does not depend on the working directory. -/
def isAbsolute (location : String) : Bool := location.startsWith "/"

/-- The part of a location that it does not lose when its end is cut off, and the pieces after. -/
def split (location : String) : String × List String :=
  match pieces location with
  | "" :: p :: ps => ("/", p :: ps)
  | "." :: ps => (".", if ps.isEmpty then [] else "" :: ps)
  | ps => ("", ps)

/-- The directory that a location lies in, as far as the location shows it. -/
def parent? (location : String) : Option String :=
  let (kept, ps) := split location
  match trimmed ps with
  | [] => if kept = "." then some "" else none
  | p :: more => some (kept ++ "/".intercalate (trimmed (p :: more).dropLast))

/-- A location as seen from a directory. -/
def join (directory location : String) : String :=
  if isAbsolute location then location
  else if directory.isEmpty || directory.endsWith "/" then directory ++ location
  else directory ++ "/" ++ location

end Formals.Location
