import TinyScript.Text.Utf8

/-!
# Files

The part of a file system that programs can reach: a tree of directories and files below the working
directory, as a plain value. Paths are relative; their components are walked one by one, `.` staying
and `..` going back. Nothing lies outside the tree.
-/

namespace TinyScript.Host

inductive Node where
  | file (data : Text)
  | dir (entries : List (Text × Node))
  deriving Inhabited, Repr

/-- The files below the working directory, and how they are written. -/
structure Files where
  entries : List (Text × Node) := []
  /-- When a file that is written piece by piece is given up, how many bytes of the pieces have gone out to it. The
  others were held back in a buffer and are lost. -/
  spill : List Text → Nat := fun _ => 0
  deriving Inhabited

/-- Why a file operation was refused. -/
inductive FileFault where
  /-- Nothing is there, or a directory on the way is missing. -/
  | missing
  /-- A directory stands where a file was needed. -/
  | isDirectory
  /-- A file stands where a directory was needed. -/
  | notDirectory
  | present
  | invalidPath
  | nameTooLong
  deriving DecidableEq, Inhabited, Repr

def FileFault.message : FileFault → Text
  | missing => "no such file or directory"
  | isDirectory => "is a directory"
  | notDirectory => "not a directory"
  | present => "file exists"
  | invalidPath => "invalid argument"
  | nameTooLong => "file name too long"

/-- A fault in an operation on a path. -/
structure FileError where
  op : Text
  path : Text
  fault : FileFault
  deriving DecidableEq, Inhabited, Repr

def FileError.message (e : FileError) : Text := e.op ++ " " ++ e.path ++ ": " ++ e.fault.message

/-- The longest component of a path. -/
def maxName : Nat := 255

/-- A path taken apart. -/
structure Path where
  dirs : List Text
  last : Text
  /-- Whether the path ends in a slash and so must name a directory. -/
  slash : Bool

/-- The components of a path, empty ones left out. -/
def components (path : Text) : List Text :=
  let step := fun (cur, acc) (b : UInt8) =>
    if b = 47 then ([], Text.mk cur.reverse :: acc) else (b :: cur, acc)
  let (last, before) := path.bytes.foldl step ([], [])
  ((Text.mk last.reverse :: before).reverse).filter fun c => !c.isEmpty

/-- Take a path apart. Absolute paths leave the tree and name nothing. -/
def splitPath (path : Text) : Except FileFault Path :=
  if path.isEmpty then .error .missing
  else if path.bytes.contains 0 then .error .invalidPath
  else if path.bytes.head? = some 47 then .error .missing
  else
    let cs := components path
    if cs.any fun c => c.size > maxName then .error .nameTooLong
    else
      match cs.getLast? with
      | none => .error .missing
      | some last => .ok ⟨cs.dropLast, last, path.endsWithByte 47⟩

/-- The entry with a name. -/
def member? (entries : List (Text × Node)) (name : Text) : Option Node :=
  (entries.find? fun e => e.1 = name).map Prod.snd

/-- Replace the entry with a name, or add one. -/
def setEntry (name : Text) (node : Node) : List (Text × Node) → List (Text × Node)
  | [] => [(name, node)]
  | e :: es => if e.1 = name then (name, node) :: es else e :: setEntry name node es

/-- Directories given innermost first, each with the name it was reached by. -/
abbrev Way := List (Text × List (Text × Node))

/-- Go back to the directory around; the outermost one has none. -/
def back : Way → Way
  | _ :: up :: rest => up :: rest
  | way => way

/-- Follow one component. -/
def advance (way : Way) (c : Text) : Except FileFault Way :=
  if c = "." then .ok way
  else if c = ".." then .ok (back way)
  else
    match way with
    | [] => .error .missing
    | (_, entries) :: _ =>
      match member? entries c with
      | none => .error .missing
      | some (.file _) => .error .notDirectory
      | some (.dir es) => .ok ((c, es) :: way)

/-- Walk components down. The result is the way to the directory reached. -/
def walk (way : Way) (cs : List Text) : Except FileFault Way := cs.foldlM advance way

/-- Store the entries of the innermost directory of a way into the one around it, and so on. -/
def rebuild : Way → List (Text × Node)
  | [] => []
  | [(_, entries)] => entries
  | (name, entries) :: (up, around) :: rest =>
    rebuild ((up, setEntry name (.dir entries) around) :: rest)
termination_by way => way.length

namespace Files

/-- The way from the working directory to the directory of a path. -/
def wayTo (fs : Files) (p : Path) : Except FileFault Way :=
  walk [(Text.empty, fs.entries)] p.dirs

def stat (fs : Files) (path : Text) : Except FileFault Node := do
  let p ← splitPath path
  let way ← fs.wayTo p
  if p.last = "." || p.last = ".." then
    match ← walk way [p.last] with
    | (_, entries) :: _ => return .dir entries
    | [] => throw .missing
  else
    match way with
    | [] => throw .missing
    | (_, entries) :: _ =>
      match member? entries p.last with
      | none => throw .missing
      | some (.file data) => if p.slash then throw .notDirectory else return .file data
      | some (.dir es) => return .dir es

def isFile (fs : Files) (path : Text) : Bool :=
  match fs.stat path with
  | .ok (.file _) => true
  | _ => false

def read (fs : Files) (path : Text) : Except FileError Text :=
  match fs.stat path with
  | .ok (.file data) => .ok data
  | .ok (.dir _) => .error ⟨"read", path, .isDirectory⟩
  | .error e => .error ⟨"open", path, e⟩

/-- Put a node where a path points. -/
def place (fs : Files) (path : Text) (node : Node) : Except FileFault Files := do
  let p ← splitPath path
  let way ← fs.wayTo p
  match way with
  | [] => throw .missing
  | (name, entries) :: rest => return { fs with entries := rebuild ((name, setEntry p.last node entries) :: rest) }

/-- Make a file with the given content, in place of a file that is there. -/
def write (fs : Files) (path data : Text) : Except FileError Files :=
  let result : Except FileFault Files := do
    let p ← splitPath path
    let _ ← fs.wayTo p
    if p.slash || p.last = "." || p.last = ".." then throw .isDirectory
    match fs.stat path with
    | .ok (.dir _) => throw .isDirectory
    | _ => fs.place path (.file data)
  result.mapError fun e => ⟨"open", path, e⟩

def mkdir (fs : Files) (path : Text) : Except FileError Files :=
  let result : Except FileFault Files := do
    match fs.stat path with
    | .ok _ => throw .present
    | .error .missing => fs.place path (.dir [])
    | .error e => throw e
  result.mapError fun e => ⟨"mkdir", path, e⟩

mutual

/-- The files of entries, with the paths that lead to them from a directory. -/
def listFrom (dir : Text) : List (Text × Node) → List (Text × Text)
  | [] => []
  | (name, node) :: es => listNode (dir ++ name) node ++ listFrom dir es

/-- The files of a node at a path. -/
def listNode (path : Text) : Node → List (Text × Text)
  | .file data => [(path, data)]
  | .dir es => listFrom (path ++ "/") es

end

/-- All files, with their paths. -/
def toList (fs : Files) : List (Text × Text) := listFrom Text.empty fs.entries

/-- Make a file and the directories on the way to it, as far as that is possible. -/
def provide (fs : Files) (path data : Text) : Files :=
  let dirs := (components path).dropLast
  let step := fun (fs, way) dir =>
    let way := way ++ dir
    (((mkdir fs way).toOption).getD fs, way ++ "/")
  let (fs, _) := dirs.foldl step (fs, Text.empty)
  ((fs.write path data).toOption).getD fs

end Files

end TinyScript.Host
