import JvmAssembler.CommandLine.Disk
import JvmAssembler.CommandLine.Options
import JvmAssembler.Listing.Read
import JvmAssembler.Method.Compile
import JvmAssembler.Text.Alphanumeric

/-! Each listing is a class: its methods are compiled with one pool. Every method gets a line with
its outcome, and a listing that cannot be read gets one as a whole. The report is what has to be
done for this, step by step. -/

namespace JvmAssembler.CommandLine

inductive Action where
  | print (text : String)
  /-- Notes a failure. -/
  | complain (message : String)
  /-- Writes a file in a directory, which is made if it is missing. -/
  | write (directory name : String) (bytes : ByteArray)
  /-- Gives up. -/
  | stop (error : DiskError)

/-- A message as it stands in the log: the lines after its first are indented. -/
def Action.logged (message : String) : String := "\n    ".intercalate (message.splitOn "\n")

/-- A line with the outcome of something. -/
def Action.status (title word : String) : Action := .print s!" - {title} [{word}]\n"

abbrev Report := Array Action

/-- A line of a dump: offset, mnemonic and bytes. -/
def dumpLine (code : Array UInt8) (line : Line) : String :=
  let bytes := (code.extract line.offset line.stop).toList.map Text.hexByte
  let offset := Text.padLeft 5 ' ' (toString line.offset)
  let mnemonic := Text.padRight 16 ' ' line.mnemonic
  s!"   {offset}: {mnemonic} " ++ " ".intercalate bytes ++ "\n"

/-- Code and stack map of a method as text. -/
def dump (m : CompiledMethod) : String :=
  let code := m.code.toArray
  let head := s!"   max stack {m.maxStack}, max locals {m.maxLocals}\n"
  let text := m.body.lines.foldl (fun text line => text ++ dumpLine code line) head
  m.stackMap.foldl (fun text entry => text ++ s!"   stack map: {entry.text ResolvedType.text}\n")
    text

/-- The directory for the code of a listing, within the one for all code. -/
def codeDirectory (directory listing : String) : String :=
  Path.join directory [Path.stem listing]

/-- The file for the code of a method: its number and the letters and digits of its name. -/
def codeName (number : Nat) (name : String) : String :=
  let kept := name.toList.filter fun c => Text.isAlphanumeric c || c == '_' || c == '$'
  s!"{number}-{String.ofList kept}.code"

/-- Adds the outcome of a method to a report, and returns the state of the class. -/
def addMethod (o : Options) (path : String) (r : Report) (state : ClassState) (number : Nat)
    (m : WrittenMethod) : Report × ClassState :=
  let title := s!"{path}::{m.name}{m.descriptor}"
  match m.compile { implicitReturn := o.implicitReturn } state with
  | .ok compiled state =>
    let r := r.push (.status title "OK")
    let r := if o.dump then r.push (.print (dump compiled)) else r
    match o.output with
    | some directory =>
      let bytes := ⟨compiled.code.toArray⟩
      (r.push (.write (codeDirectory directory path) (codeName number m.name) bytes), state)
    | none => (r, state)
  | .error e state =>
    ((r.push (.complain s!"{path}:{e.diagnostic}")).push (.status title "FAILED"), state)

/-- Adds the outcome of a listing to a report. -/
def addListing (o : Options) (r : Report) (path : String) (bytes : ByteArray) : Report :=
  match String.fromUTF8? bytes with
  | none => r.push (.stop .notText)
  | some text =>
    match readListing text with
    | .error e => (r.push (.complain s!"{path}:{e.diagnostic}")).push (.status path "ERROR")
    | .ok methods =>
      let start : ClassState := ⟨.empty, { limit := .error }⟩
      (methods.zipIdx.foldl
        (fun (r, state) (m, number) => addMethod o path r state number m) (r, start)).1

/-- The report on listings, given with their paths. -/
def report (o : Options) (listings : List (String × ByteArray)) : Report :=
  listings.foldl (fun r (path, bytes) => addListing o r path bytes) #[]

/-- Is this the name of a listing? -/
def isListing (name : String) : Bool := (Path.splitName name).2 == some "jal"

/-- The listings that an input names on a disk, with their paths: the file itself, or all files below
it with the extension of listings. -/
def findListings (d : Disk) (input : String) : List (String × ByteArray) :=
  match d.locate input with
  | .error _ => []
  | .ok place =>
    match d.entries.get? place with
    | some (.file bytes) => [(input, bytes)]
    | _ =>
      (d.filesBelow place).filterMap fun (names, bytes) =>
        if names.getLast?.any isListing then some (Path.join input names, bytes) else none

end JvmAssembler.CommandLine
