import SmallPascal.CommandLine

/-!
A directory with the folders and the files in it, what a path leads to from it, and how a file is
written to a path. Reading and writing follow a path by the same steps.
-/

namespace SmallPascal

/-- The folders and the files inside a directory, by the names on the way to them; of two files of
one place the first one counts. -/
structure Directory where
  folders : List (List String)
  files : List (List String × ByteArray)

/-- Where a path has led so far: to some directory around the given one, of which nothing else is
known, or to a place inside it. -/
inductive Place where
  | outside
  | inside (names : List String)

namespace Directory

def empty : Directory := ⟨[], []⟩

/-- The number of bytes of the longest name. -/
def nameBound : Nat := 255

/-- The number of bytes of the longest path. -/
def pathBound : Nat := 4095

/-- Whether the names lead to a directory: to this one itself, or to a folder in it. -/
def isFolder (directory : Directory) (names : List String) : Bool :=
  names.isEmpty || directory.folders.contains names

/-- The contents of the file that the names lead to, if there is one. -/
def bytes? (directory : Directory) (names : List String) : Option ByteArray :=
  (directory.files.find? (·.1 == names)).map (·.2)

/-! ### Paths -/

/-- The place at which a path begins. A path that begins with a slash does not begin here. -/
def start (path : String) : Place :=
  if path.startsWith "/" then .outside else .inside []

/-- The steps of a path, if it can be followed at all. An empty path and one that is too long lead
nowhere. -/
def steps? (path : String) : Option (List String) :=
  if path = "" ∨ pathBound < path.utf8ByteSize then none else some (path.splitOn "/")

/-- The place that one step of a path leads to, if there is one. One dot stays and two dots go back;
a step leads on only from a directory. -/
def step? (directory : Directory) (place : Place) (step : String) : Option Place :=
  match place with
  | .outside => if step = "" ∨ step = "." ∨ step = ".." then some .outside else none
  | .inside names =>
    if ¬ directory.isFolder names then none
    else if step = "" ∨ step = "." then some (.inside names)
    else if step = ".." then some (if names.isEmpty then .outside else .inside names.dropLast)
    else if nameBound < step.utf8ByteSize then none
    else some (.inside (names ++ [step]))

/-- The place that a path leads to, if there is one. -/
def place? (directory : Directory) (path : String) : Option Place := do
  (← steps? path).foldlM (fun place step => directory.step? place step) (start path)

def contents (directory : Directory) (path : String) : Contents :=
  let folder : Contents := .unreadable "Is a directory (os error 21)"
  match directory.place? path with
  | none => .missing
  | some .outside => folder
  | some (.inside names) =>
    if directory.isFolder names then folder
    else
      match directory.bytes? names with
      | some bytes => .bytes bytes
      | none => .missing

/-! ### Writing -/

/-- A directory with a folder at the place, if nothing is there yet. -/
def addFolder (directory : Directory) : Place → Directory
  | .outside => directory
  | .inside names =>
    if directory.isFolder names || (directory.bytes? names).isSome then directory
    else { directory with folders := names :: directory.folders }

/-- A directory with a file at the place. No file takes the place of a folder. -/
def addFile (directory : Directory) (bytes : ByteArray) : Place → Directory
  | .outside => directory
  | .inside names =>
    if directory.isFolder names then directory
    else { directory with files := (names, bytes) :: directory.files }

/-- The file written last is the one that counts. -/
theorem bytes?_addFile {directory : Directory} {bytes : ByteArray} {names other : List String}
    (h : directory.isFolder names = false) :
    (directory.addFile bytes (.inside names)).bytes? other =
      if names = other then some bytes else directory.bytes? other := by
  simp only [addFile, bytes?, h]
  by_cases e : names = other <;> simp [e]

/-- Takes one step of a path, and makes the folder that it leads to. -/
def enter? (directory : Directory) (place : Place) (step : String) :
    Option (Directory × Place) := do
  let place ← directory.step? place step
  return (directory.addFolder place, place)

/-- The directory after a file was written to a path, with the folders on the way made, if the
path leads to where a file can be. -/
def write? (directory : Directory) (path : String) (bytes : ByteArray) : Option Directory := do
  let steps ← steps? path
  let (directory, place) ← steps.dropLast.foldlM
    (fun (directory, place) step => directory.enter? place step) (directory, start path)
  let place ← directory.step? place (← steps.getLast?)
  return directory.addFile bytes place

/-- The directory in which the given files were written one after the other. A file that cannot be
written changes nothing. -/
def ofFiles (files : List (String × ByteArray)) : Directory :=
  files.foldl (fun directory file => (directory.write? file.1 file.2).getD directory) empty

end Directory

end SmallPascal
