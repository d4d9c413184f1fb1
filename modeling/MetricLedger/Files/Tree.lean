import MetricLedger.Files.Fault
import MetricLedger.Files.Path

/-!
# Files

A tree of directories and files with the operations that the engine needs of it. One of the files is
a device that takes no byte at all.
-/

namespace MetricLedger

/-- What a place in the tree holds. -/
inductive FileNode where
  | directory
  | file (content : List UInt8)
  /-- The device without room. -/
  | full
  deriving DecidableEq, Repr

/-- A place in the tree: the names on the way from the root. -/
abbrev Place := List String

/-- A tree of files. -/
structure Files where
  nodes : List (Place × FileNode)
  /-- The place that relative paths start from. -/
  workingPlace : Place

namespace Files

/-- The tree before anything is written: an empty working directory and the device without room. -/
def empty : Files where
  nodes := [([], .directory), (["dev"], .directory), (["dev", "full"], .full),
    (["tmp"], .directory), (["work"], .directory)]
  workingPlace := ["work"]

/-- What a place holds. -/
def node? (t : Files) (place : Place) : Option FileNode := t.nodes.lookup place

/-- Puts a node at a place, over the one there. -/
def putNode (place : Place) (node : FileNode) : List (Place × FileNode) → List (Place × FileNode)
  | [] => [(place, node)]
  | (p, n) :: rest => if p = place then (p, node) :: rest else (p, n) :: putNode place node rest

def put (t : Files) (place : Place) (node : FileNode) : Files :=
  ⟨putNode place node t.nodes, t.workingPlace⟩

/-! ## From paths to places -/

/-- The bytes of the longest name. -/
def maxNameLength : Nat := 255

/-- The bytes of the longest path. -/
def maxPathLength : Nat := 4095

def step (t : Files) (here : Place) (name : String) : Except FileFault Place :=
  match t.node? here with
  | some .directory =>
      if Path.isIdle name then .ok here
      else if name = ".." then .ok here.dropLast
      else if maxNameLength < name.utf8ByteSize then .error .nameTooLong
      else .ok (here ++ [name])
  | some _ => .error .notDirectory
  | none => .error .notFound

/-- The place that a path leads to; nothing need be there yet. -/
def resolve (t : Files) (path : String) : Except FileFault Place :=
  if path.toList.contains '\x00' then .error .zeroInPath
  else if path.isEmpty then .error .notFound
  else if maxPathLength < path.utf8ByteSize then .error .nameTooLong
  else
    let (start, pieces) := Path.split path
    let origin := if start = "/" then [] else t.workingPlace
    pieces.foldlM t.step origin

/-- What a path leads to. -/
def find (t : Files) (path : String) : Except FileFault (Place × FileNode) := do
  let place ← t.resolve path
  match t.node? place with
  | some node => .ok (place, node)
  | none => .error .notFound

def isDirectory (t : Files) (path : String) : Bool :=
  match t.find path with
  | .ok (_, .directory) => true
  | _ => false

/-- The path leads to something. -/
def doesExist (t : Files) (path : String) : Bool := (t.find path).isOk

/-! ## Reading -/

/-- The bytes at a place. -/
def contentAt (t : Files) (place : Place) : Except FileFault (List UInt8) :=
  match t.node? place with
  | some (.file content) => .ok content
  | some .full => .ok []
  | some .directory => .error .isDirectory
  | none => .error .notFound

def read (t : Files) (path : String) : Except FileFault (List UInt8) := do
  let (place, _) ← t.find path
  t.contentAt place

/-! ## Writing -/

/-- Opens a file to put bytes behind its content; a file that is not there is made. -/
def openAppend (t : Files) (path : String) : Except FileFault (Place × Files) := do
  if Path.hasTrailingSlash path then
    let _ ← t.resolve (Path.withoutTrailingSlashes path)
    .error .isDirectory
  else
    let place ← t.resolve path
    match t.node? place with
    | some .directory => .error .isDirectory
    | some _ => .ok (place, t)
    | none => .ok (place, t.put place (.file []))

/-- Puts bytes behind the content at a place, and tells whether there was room. -/
def append (t : Files) (place : Place) (bytes : List UInt8) : Except FileFault Files :=
  match t.node? place with
  | some (.file content) => .ok (t.put place (.file (content ++ bytes)))
  | some .full => .error .noSpace
  | some .directory => .error .isDirectory
  | none => .error .notFound

/-- Makes one directory. -/
def createDirectory (t : Files) (path : String) : Except FileFault Files := do
  let place ← t.resolve path
  match t.node? place with
  | some _ => .error .alreadyExists
  | none => .ok (t.put place .directory)

/-- A directory that could not be made counts as made if it is there all the same. -/
def orExisting (t : Files) (path : String) (fault : FileFault) : Except FileFault Unit × Files :=
  (if t.isDirectory path then .ok () else .error fault, t)

/-- Makes a directory and, in at most `fuel` steps, those that it lies in. -/
def createDirectoriesUpTo : Nat → Files → String → Except FileFault Unit × Files
  | 0, t, _ => (.error .notFound, t)
  | fuel + 1, t, path =>
      if path.isEmpty then (.ok (), t)
      else
        match t.createDirectory path with
        | .ok t => (.ok (), t)
        | .error .notFound =>
            match Path.parent? path with
            | none => (.error .notFound, t)
            | some parent =>
                match createDirectoriesUpTo fuel t parent with
                | (.error fault, t) => (.error fault, t)
                | (.ok _, t) =>
                    match t.createDirectory path with
                    | .ok t => (.ok (), t)
                    | .error fault => t.orExisting path fault
        | .error fault => t.orExisting path fault

/-- Makes a directory and those that it lies in, as far as they are not there. -/
def createDirectories (t : Files) (path : String) : Except FileFault Unit × Files :=
  createDirectoriesUpTo (path.length + 1) t path

/-- Writes a whole file over the one there, in directories made for it if they are not there. -/
def write (t : Files) (path : String) (content : List UInt8) : Except FileFault Files := do
  let (made, t) := t.createDirectories ((Path.parent? path).getD "")
  made
  let (place, t) ← t.openAppend path
  match t.node? place with
  | some .full => .error .noSpace
  | _ => .ok (t.put place (.file content))

/-! ## Laws -/

theorem node?_put (t : Files) (place other : Place) (node : FileNode) :
    (t.put place node).node? other = if other = place then some node else t.node? other := by
  obtain ⟨nodes, _⟩ := t
  simp only [node?, put]
  induction nodes with
  | nil => simp [putNode, List.lookup_cons]; split <;> simp_all
  | cons a nodes ih =>
      obtain ⟨p, n⟩ := a
      simp only [putNode]
      by_cases hp : p = place
      · subst hp
        by_cases ho : other = p
        · simp [ho]
        · have : (other == p) = false := by simpa using ho
          simp [List.lookup_cons, this, ho]
      · by_cases ho : other = p
        · subst ho; simp [hp]
        · have : (other == p) = false := by simpa using ho
          simp only [if_neg hp, List.lookup_cons, this, ih]

end Files

end MetricLedger
