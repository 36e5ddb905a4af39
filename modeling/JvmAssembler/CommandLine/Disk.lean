import JvmAssembler.CommandLine.Path
import Std.Data.TreeMap

/-! A disk is a tree of directories and files, and one of its directories is the working directory.
A path is walked part by part, and every part but the last has to lead to a directory. -/

namespace JvmAssembler

/-- Why a disk refuses to do something. -/
inductive DiskError where
  | notFound
  | alreadyExists
  | notDirectory
  | isDirectory
  | nameTooLong
  /-- The bytes of a file are no text. -/
  | notText
deriving DecidableEq, Repr

/-- The text for a refusal with a number and a kind. -/
def DiskError.describe (number : Nat) (kind message : String) : String :=
  s!"Os \x7b code: {number}, kind: {kind}, message: \"{message}\" \x7d"

def DiskError.message : DiskError → String
  | notFound => describe 2 "NotFound" "No such file or directory"
  | alreadyExists => describe 17 "AlreadyExists" "File exists"
  | notDirectory => describe 20 "NotADirectory" "Not a directory"
  | isDirectory => describe 21 "IsADirectory" "Is a directory"
  | nameTooLong => describe 36 "InvalidFilename" "File name too long"
  | notText =>
    "Error \x7b kind: InvalidData, message: \"stream did not contain valid UTF-8\" \x7d"

/-- The names that lead to a place from the root, the last one first. -/
abbrev Place := List String

/-- The names that lead to a place from another one above it. -/
def Place.below? (above place : Place) : Option (List String) :=
  if above.isSuffixOf place then some (place.take (place.length - above.length)).reverse else none

inductive DiskEntry where
  | directory
  | file (bytes : ByteArray)

def DiskEntry.isDirectory : DiskEntry → Bool
  | directory => true
  | file _ => false

structure Disk where
  entries : Std.TreeMap Place DiskEntry
  working : Place

namespace Disk

/-- A name has at most 255 bytes. -/
def nameLimit : Nat := 255

/-- A path has at most 4095 bytes. -/
def pathLimit : Nat := 4095

/-- Where a part leads to from a place. An empty part and a dot stay, two dots go up, and a name goes
down. -/
def step (d : Disk) (place : Place) (part : String) : Except DiskError Place :=
  match d.entries.get? place with
  | none => .error .notFound
  | some (.file _) => .error .notDirectory
  | some .directory =>
    if part == "" || part == "." then .ok place
    else if part == ".." then .ok place.tail
    else if nameLimit < part.utf8ByteSize then .error .nameTooLong
    else if d.entries.contains (part :: place) then .ok (part :: place)
    else .error .notFound

def walk (d : Disk) (place : Place) (parts : List String) : Except DiskError Place :=
  parts.foldlM d.step place

/-- Where a path starts. -/
def start (d : Disk) (path : String) : Place := if Path.isAbsolute path then [] else d.working

/-- Where a path leads to. -/
def locate (d : Disk) (path : String) : Except DiskError Place :=
  if pathLimit < path.utf8ByteSize then .error .nameTooLong
  else d.walk (d.start path) (Path.parts path)

/-- Is the place that a walk leads to a directory? -/
def isDirectory (d : Disk) (place : Place) (parts : List String) : Bool :=
  match d.walk place parts with
  | .ok target => (d.entries.get? target).any DiskEntry.isDirectory
  | .error _ => false

/-- Makes the directory that parts lead to, given last one first. -/
def makeDirectory (d : Disk) (place : Place) : List String → Except DiskError Disk
  | [] => .error .alreadyExists
  | name :: above => do
    let parent ← d.walk place above.reverse
    match d.step parent name with
    | .ok _ => .error .alreadyExists
    | .error .notFound => .ok { d with entries := d.entries.insert (name :: parent) .directory }
    | .error e => .error e

/-- Makes a directory if it is not there. -/
def ensureDirectory (d : Disk) (place : Place) (parts : List String) : Except DiskError Disk :=
  match d.makeDirectory place parts with
  | .ok d => .ok d
  | .error e => if d.isDirectory place parts.reverse then .ok d else .error e

/-- Makes a directory if it is not there. If one above it is missing, those are made first. -/
def ensureAfter (d : Disk) (place : Place) (parts : List String)
    (above : Disk → Except DiskError Disk) : Except DiskError Disk :=
  match d.ensureDirectory place parts with
  | .error .notFound => do (← above d).ensureDirectory place parts
  | result => result

/-- Makes the directory that names lead to, given last one first, and those above it, as far as they
are missing. -/
def makeDirectories (place : Place) : List String → Disk → Except DiskError Disk
  | [], d => .ok d
  | name :: above, d => d.ensureAfter place (name :: above) (makeDirectories place above)

/-- Makes a directory and those above it, as far as they are missing. A dot at the end of the path is
followed but names no directory, so the one before it has to be there. -/
def createDirectory (d : Disk) (path : String) : Except DiskError Disk :=
  if pathLimit < path.utf8ByteSize then .error .nameTooLong
  else
    let place := d.start path
    d.ensureAfter place (Path.parts path).reverse
      (makeDirectories place (Path.names path).reverse.tail)

/-- Writes a file in a directory, in place of the one that may be there. -/
def writeFile (d : Disk) (directory name : String) (bytes : ByteArray) :
    Except DiskError Disk := do
  if pathLimit < (Path.join directory [name]).utf8ByteSize then throw .nameTooLong
  let parent ← d.locate directory
  let written : Disk := { d with entries := d.entries.insert (name :: parent) (.file bytes) }
  match d.step parent name with
  | .ok target =>
    match d.entries.get? target with
    | some (.file _) => .ok written
    | _ => .error .isDirectory
  | .error .notFound => .ok written
  | .error e => .error e

/-- The files below a place, with the names that lead to them from there. -/
def filesBelow (d : Disk) (place : Place) : List (List String × ByteArray) :=
  d.entries.toList.filterMap fun (target, entry) =>
    match entry, place.below? target with
    | .file bytes, some names => some (names, bytes)
    | _, _ => none

/-- The files below the working directory, by their paths. -/
def files (d : Disk) : Std.TreeMap String ByteArray :=
  (d.filesBelow d.working).foldl
    (fun files (names, bytes) => files.insert ("/".intercalate names) bytes) ∅

/-- Adds a file, and the directories above it, to the entries below a place. -/
def addFile (bytes : ByteArray) (entries : Std.TreeMap Place DiskEntry) (place : Place) :
    List String → Std.TreeMap Place DiskEntry
  | [] => entries.insert place (.file bytes)
  | name :: rest => addFile bytes (entries.insert place .directory) (name :: place) rest

/-- The disk that holds the given texts below its working directory. The name of that directory is
empty, so that no path leads down to it. -/
def ofFiles (files : List (String × String)) : Disk :=
  let empty : Std.TreeMap Place DiskEntry :=
    (∅ : Std.TreeMap Place DiskEntry).insert [] .directory |>.insert [""] .directory
  { working := [""]
    entries := files.foldl
      (fun entries (path, text) => addFile text.toUTF8 entries [""] (Path.names path)) empty }

end Disk

end JvmAssembler
