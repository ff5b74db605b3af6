import ShaderBuild.Bytes
import ShaderBuild.Path
import ShaderBuild.FileSystem.Fault
/-!
# A file system in memory

A file system is a finite list of places with a file or a directory at each, and a working
directory that relative paths start from. The root is always a directory. Everything a build does
to files goes through the operations of this module, so what a build did is the difference between
two values.

Three things are assumed of the system that stands behind it. There are no links: each place has one
path without dots, so that the canonical path of a file tells it from all others. A file is written
as a whole or not at all: there is room for it, and nothing interrupts the writing. And every file
may be read and written, every directory changed.
-/

namespace ShaderBuild

/-- What is at a place. -/
inductive FileSystem.Node where
  | directory
  | file (content : Bytes)
  deriving DecidableEq, Repr

/-- The files and directories of a system. -/
structure FileSystem where
  nodes : List (Location × FileSystem.Node) := []
  /-- The directory that relative paths start from. -/
  workDir : Location := .root
  deriving DecidableEq, Repr

namespace FileSystem

/-- What is at a place. -/
def node? (fs : FileSystem) (l : Location) : Option Node :=
  if l = .root then some .directory else fs.nodes.lookup l

/-- The content of the file at a place. -/
def content? (fs : FileSystem) (l : Location) : Option Bytes :=
  match fs.node? l with
  | some (.file content) => some content
  | _ => none

/-- The places that hold files. -/
def filePlaces (fs : FileSystem) : List Location :=
  (fs.nodes.map Prod.fst).filter fun l => (fs.content? l).isSome

/-- Take away what is at a place. -/
def erase (fs : FileSystem) (l : Location) : FileSystem :=
  { fs with nodes := fs.nodes.filter (·.1 != l) }

/-- Put a file or directory at a place. -/
def put (fs : FileSystem) (l : Location) (n : Node) : FileSystem :=
  { fs with nodes := (l, n) :: fs.nodes.filter (·.1 != l) }

/-! ## Following a path -/

/-- The longest name, in bytes. -/
def maxName : Nat := 255

/-- The longest path, in bytes. -/
def maxPath : Nat := 4095

/-- Go from a place to a part of it. There must be a directory at the place, and something where
the part leads. -/
def step (fs : FileSystem) (l : Location) (part : List Char) : Except FileFault Location :=
  match fs.node? l with
  | none => .error .notFound
  | some (.file _) => .error .notADirectory
  | some .directory =>
    if Path.isIdle part then .ok l
    else if part = ['.', '.'] then .ok l.parent
    else
      let name := String.ofList part
      if maxName < name.utf8ByteSize then .error .nameTooLong
      else if (fs.node? (l.child name)).isSome then .ok (l.child name)
      else .error .notFound

/-- Go from a place along some parts. -/
def walk (fs : FileSystem) (l : Location) (parts : List (List Char)) : Except FileFault Location :=
  parts.foldlM fs.step l

/-- Where a path starts. -/
def origin (fs : FileSystem) (p : Path) : Location := if p.isAbsolute then .root else fs.workDir

/-- The place that a path leads to, however long the path is: its parts are followed one by one. -/
def trace (fs : FileSystem) (p : Path) : Except FileFault Location :=
  if p.text.toList.contains '\x00' then .error .nulInPath
  else if p.text = "" then .error .notFound
  else fs.walk (fs.origin p) (Path.splitSlash p.text.toList)

/-- A path that can be looked up at once. -/
def check (p : Path) : Except FileFault Unit :=
  if p.text.toList.contains '\x00' then .error .nulInPath
  else if p.text = "" then .error .notFound
  else if maxPath < p.text.utf8ByteSize then .error .nameTooLong
  else .ok ()

/-- The place that a path leads to. -/
def resolve (fs : FileSystem) (p : Path) : Except FileFault Location := do
  check p
  fs.walk (fs.origin p) (Path.splitSlash p.text.toList)

/-- Does a path lead to a file? -/
def isFile (fs : FileSystem) (p : Path) : Bool :=
  match fs.resolve p with
  | .ok l => (fs.content? l).isSome
  | .error _ => false

/-- Does a path lead to a directory? -/
def isDirectory (fs : FileSystem) (p : Path) : Bool :=
  match fs.resolve p with
  | .ok l => fs.node? l == some .directory
  | .error _ => false

/-! ## Reading -/

/-- The content of the file at a place. -/
def readAt (fs : FileSystem) (l : Location) : Except FileFault Bytes :=
  match fs.node? l with
  | none => .error .notFound
  | some .directory => .error .isADirectory
  | some (.file content) => .ok content

/-- The content of the file that a path leads to. -/
def read (fs : FileSystem) (p : Path) : Except FileFault Bytes := do
  fs.readAt (← fs.resolve p)

/-- The text of a file. -/
def asText (content : Bytes) : Except FileFault String :=
  match Bytes.text? content with
  | some text => .ok text
  | none => .error .notText

/-- The text of the file at a place. -/
def readTextAt (fs : FileSystem) (l : Location) : Except FileFault String := do
  asText (← fs.readAt l)

/-- The text of the file that a path leads to. -/
def readText (fs : FileSystem) (p : Path) : Except FileFault String := do
  asText (← fs.read p)

/-! ## Changing files and directories -/

/-- Where a path leads whose last part need not exist: the directory that it is in, and the last
part. -/
def locate (fs : FileSystem) (p : Path) : Except FileFault (Location × List Char) := do
  check p
  let parts := Path.splitSlash p.text.toList
  let dir ← fs.walk (fs.origin p) parts.dropLast
  if fs.node? dir = some .directory then .ok (dir, parts.getLastD []) else .error .notADirectory

/-- Drop the slashes at the end of a path that is more than that. -/
def dropSlashes (p : Path) : Path :=
  let kept := (p.text.toList.reverse.dropWhile (· == '/')).reverse
  if kept = [] then p else ⟨String.ofList kept⟩

/-- The place of a new or existing file of some name. Slashes at the end stand for a directory. -/
def target (fs : FileSystem) (p : Path) : Except FileFault Location := do
  let (dir, part) ← fs.locate (dropSlashes p)
  if dropSlashes p ≠ p ∨ Path.isIdle part ∨ part = ['.', '.'] then .error .isADirectory
  else
    let name := String.ofList part
    if maxName < name.utf8ByteSize then .error .nameTooLong else .ok (dir.child name)

/-- Write a file, in place of one that is there. Its directory must exist. -/
def write (fs : FileSystem) (p : Path) (content : Bytes) : Except FileFault FileSystem := do
  let l ← fs.target p
  if fs.node? l = some .directory then .error .isADirectory else .ok (fs.put l (.file content))

/-- Remove a file. -/
def removeFile (fs : FileSystem) (p : Path) : Except FileFault FileSystem := do
  let l ← fs.resolve p
  match fs.node? l with
  | some (.file _) => .ok (fs.erase l)
  | some .directory => .error .isADirectory
  | none => .error .notFound

/-- Create one directory, in one that exists. -/
def createDirectory (fs : FileSystem) (p : Path) : Except FileFault FileSystem := do
  let (dir, part) ← fs.locate (dropSlashes p)
  let name := String.ofList part
  if Path.isIdle part ∨ part = ['.', '.'] then .error .alreadyExists
  else if maxName < name.utf8ByteSize then .error .nameTooLong
  else if (fs.node? (dir.child name)).isSome then .error .alreadyExists
  else .ok (fs.put (dir.child name) .directory)

/-- Create a directory and those above it, as far as they are missing. -/
def createDirectories (fs : FileSystem) (p : Path) : Except FileFault Unit × FileSystem :=
  if p.text = "" then (.ok (), fs)
  else
    match fs.createDirectory p with
    | .ok fs => (.ok (), fs)
    | .error .notFound =>
      match _h : p.parent? with
      | none => (.error .noAncestor, fs)
      | some above =>
        match fs.createDirectories above with
        | (.error fault, fs) => (.error fault, fs)
        | (.ok _, fs) =>
          match fs.createDirectory p with
          | .ok fs => (.ok (), fs)
          | .error fault => (if fs.isDirectory p then .ok () else .error fault, fs)
    | .error fault => (if fs.isDirectory p then .ok () else .error fault, fs)
termination_by p.text.length
decreasing_by exact Path.length_parent_lt _h

/-- Write a file, in place of one that is there. Its directory is created if it is missing. -/
def writeCreating (fs : FileSystem) (p : Path) (content : Bytes) :
    Except FileFault Unit × FileSystem :=
  match p.parent?.elim (.ok (), fs) fs.createDirectories with
  | (.error fault, fs) => (.error fault, fs)
  | (.ok _, fs) =>
    match fs.write p content with
    | .ok fs => (.ok (), fs)
    | .error fault => (.error fault, fs)

end FileSystem

end ShaderBuild
