import JvmAssembler.Error
import JvmAssembler.Journal
import JvmAssembler.Text.Numeral

/-! The locals of a method by slot and by name. The arguments come first; any other local is
declared by the first store into it. -/

namespace JvmAssembler

structure Local where
  name : String
  index : UInt16
  /-- The type that the local was declared with. -/
  type : FieldType
  isParameter : Bool
deriving DecidableEq

namespace Local

def width (l : Local) : Nat := l.type.width

/-- Does an instruction need the word `wide` to reach the local? -/
def requiresWide (l : Local) : Bool := l.index > 255

end Local

structure LocalTable where
  locals : Array Local := #[]
  /-- Report loads for which there is a shorter form. -/
  warnShort : Bool := true

/-- What the resolution of locals works on. -/
structure LocalState where
  table : LocalTable
  journal : Journal

abbrev LocalM := Assembly LocalState

namespace LocalTable

/-- Adds the locals of parameters, from a slot and a number of parameters before. -/
def addParameters (locals : Array Local) (index number : Nat) : List FieldType → Array Local
  | [] => locals
  | type :: rest =>
    let parameter := ⟨"arg" ++ Text.zeroPadded 5 number, UInt16.ofNat index, type, true⟩
    addParameters (locals.push parameter) (index + type.width) (number + 1) rest

/-- The arguments of a method; the receiver has a class if there is one. -/
def ofMethod (receiver : Option BinaryName) (descriptor : MethodDescriptor) : LocalTable :=
  match receiver with
  | none => { locals := addParameters #[] 0 0 descriptor.parameters }
  | some owner =>
    { locals := addParameters #[⟨"this", 0, .object owner, true⟩] 1 0 descriptor.parameters }

/-- The first slot after all locals. -/
def nextIndex (t : LocalTable) : Nat :=
  t.locals.foldl (fun next l => max next (l.index.toNat + l.width)) 0

def find? (t : LocalTable) : LocalRef → Option Local
  | .index index => t.locals.find? (·.index == index)
  | .name name => t.locals.find? (·.name == name)

/-- A local that exists. -/
def resolve (t : LocalTable) (reference : LocalRef) (mnemonic : String) (position : Position) :
    Except CompileError Local :=
  match t.find? reference with
  | some found => .ok found
  | none => .error (.unknownLocal position reference mnemonic)

end LocalTable

namespace LocalM

def report (event : Event) : LocalM Unit :=
  modify fun s => { s with journal := s.journal.report event }

/-- The local that a load reads. -/
def resolveLoad (reference : LocalRef) (insn : WrittenInstruction) : LocalM Local := do
  let table := (← get).table
  let found ← table.resolve reference insn.mnemonic insn.position
  if table.warnShort && !insn.wide && found.index ≤ 3 then
    report (.shorterLoad insn.position found.name insn.mnemonic found.index)
  return found

/-- The type of a new local: the declared one if there is one. -/
def declaredType (insn : WrittenInstruction) (default : FieldType) :
    Except CompileError FieldType :=
  match insn.declaration.bind (·.descriptor) with
  | none => .ok default
  | some text =>
    (FieldType.ofString text).mapError fun cause =>
      .badDescriptor insn.position text (.descriptor cause)

/-- The name and slot of a new local. A named one gets the first slot after all locals. -/
def placeNew (reference : LocalRef) (insn : WrittenInstruction) : LocalM (String × Nat) :=
  match reference with
  | .index index =>
    match insn.declaration with
    | some declaration => return (declaration.name, index.toNat)
    | none => return ("local" ++ Text.zeroPadded 5 index.toNat, index.toNat)
  | .name name => do
    if let some declaration := insn.declaration then
      if declaration.name != name then
        report (.namesDiffer insn.position name declaration.name)
    return (name, (← get).table.nextIndex)

/-- Declares the local that a store writes first. -/
def declareNew (reference : LocalRef) (insn : WrittenInstruction) (default : FieldType) :
    LocalM Local := do
  let type ← declaredType insn default
  let (name, index) ← placeNew reference insn
  if index + type.width > maxLocals then
    throw (.illegal insn.position insn.mnemonic (.localTooHigh name type index))
  let created : Local := ⟨name, UInt16.ofNat index, type, false⟩
  report (.declaredLocal insn.position name created.index type)
  modify fun s => { s with table := { s.table with locals := s.table.locals.push created } }
  return created

/-- The local that a store writes, which is declared if it is new. -/
def resolveStore (reference : LocalRef) (insn : WrittenInstruction) (default : FieldType) :
    LocalM Local := do
  match (← get).table.find? reference with
  | some found =>
    if let some declaration := insn.declaration then
      if declaration.name != found.name then
        report (.nameIgnored insn.position found.index found.name declaration.name)
    return found
  | none => declareNew reference insn default

end LocalM

end JvmAssembler
