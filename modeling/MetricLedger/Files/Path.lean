/-!
# Paths

A path is kept as the text it was given as. Its pieces are what stands between the slashes; an empty
piece and the piece `.` name no directory of their own.
-/

namespace MetricLedger.Path

/-- The piece names no directory of its own. -/
def isIdle (piece : String) : Bool := piece == "" || piece == "."

/-- The pieces without the idle ones at their end. -/
def trimIdle (pieces : List String) : List String := (pieces.reverse.dropWhile isIdle).reverse

/-- What a path starts with, a slash, a dot or nothing, and its pieces behind that. -/
def split (path : String) : String × List String :=
  match path.splitOn "/" with
  | "" :: rest@(_ :: _) => ("/", rest)
  | "." :: rest => (".", rest)
  | pieces => ("", pieces)

def join (start : String) (pieces : List String) : String :=
  match start, pieces with
  | ".", _ :: _ => "./" ++ "/".intercalate pieces
  | start, pieces => start ++ "/".intercalate pieces

/-- The path of the directory that a path lies in, if there is one. -/
def parent? (path : String) : Option String :=
  let (start, pieces) := split path
  match (trimIdle pieces).reverse with
  | [] => if start = "." then some "" else none
  | _ :: rest => some (join start (trimIdle rest.reverse))

def hasTrailingSlash (path : String) : Bool := path.toList.getLast? == some '/'

/-- The path without the slashes at its end, one that is all of it apart. -/
def withoutTrailingSlashes (path : String) : String :=
  match path.toList.reverse.dropWhile (· == '/') with
  | [] => "/"
  | cs => String.ofList cs.reverse

end MetricLedger.Path
