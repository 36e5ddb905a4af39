import JvmAssembler.Frame.Basic

/-! Verification types, and the entries that describe a frame by its difference from the frame
before. Both are over what stands for a class and for the place of an allocation: a type and an
instruction in a method, an index of the pool and an offset in code. -/

namespace JvmAssembler

inductive VerificationType (κ σ : Type) where
  | top
  | numeric (kind : NumericKind)
  | null
  | uninitializedThis
  | object (type : κ)
  | uninitialized (site : σ)
deriving DecidableEq, Repr

namespace VerificationType

variable {κ κ' σ σ' : Type}

def width : VerificationType κ σ → Nat
  | numeric kind => kind.width
  | _ => 1

/-- The verification type of a value. -/
def ofValueType : ValueType → VerificationType RefType Nat
  | .top => top
  | .numeric kind => numeric kind
  | .null => null
  | .uninitializedThis => uninitializedThis
  | .uninitialized _ site => uninitialized site
  | .anyObject => object (.object .javaObject)
  | .reference type => object type

def traverse {m : Type → Type} [Monad m] (f : κ → m κ') (g : σ → m σ') :
    VerificationType κ σ → m (VerificationType κ' σ')
  | top => pure top
  | numeric kind => pure (numeric kind)
  | null => pure null
  | uninitializedThis => pure uninitializedThis
  | object type => return object (← f type)
  | uninitialized site => return uninitialized (← g site)

def text (typeText : κ → String) (siteText : σ → String) : VerificationType κ σ → String
  | top => "Top"
  | numeric .int => "Integer"
  | numeric .float => "Float"
  | numeric .double => "Double"
  | numeric .long => "Long"
  | null => "Null"
  | uninitializedThis => "UninitializedThis"
  | object type => s!"Object({typeText type})"
  | uninitialized site => s!"Uninitialized({siteText site})"

end VerificationType

/-- A reference type as it stands in messages on stack maps. -/
def RefType.mapText : RefType → String
  | object name => s!"Object({name.text})"
  | array (.object name) extra => s!"ObjectArray({arrayText name.text extra})"
  | array (.base type) extra => s!"PrimitiveArray({arrayText type.name extra})"
where
  arrayText (element : String) (extra : Nat) : String :=
    s!"ArrayType \x7b additional_dimensions: {extra}, element_type: {element} \x7d"

/-- A verification type of a method under assembly. -/
abbrev SymbolicType := VerificationType RefType Nat

def SymbolicType.text (type : SymbolicType) : String :=
  VerificationType.text RefType.mapText (fun site => s!"InstructionId({site})") type

/-- A verification type with an index of the pool and an offset in code. -/
abbrev ResolvedType := VerificationType UInt16 UInt16

def ResolvedType.text (type : ResolvedType) : String :=
  VerificationType.text (fun index => s!"ConstantIndex({index.toNat})")
    (fun offset => s!"{offset.toNat}") type

/-- An entry with types in `τ`. All but a full entry refer to the locals of the entry before. -/
inductive MapEntry (τ : Type) where
  /-- The same locals and an empty stack. -/
  | same (delta : UInt16)
  /-- The same locals and one stack entry. -/
  | oneStack (delta : UInt16) (stack : τ)
  /-- Without the last locals, and an empty stack. -/
  | chop (delta : UInt16) (count : Nat)
  /-- With more locals, and an empty stack. -/
  | append (delta : UInt16) (locals : List τ)
  | full (delta : UInt16) (locals stack : List τ)
deriving DecidableEq, Repr

namespace MapEntry

variable {τ τ' : Type}

def delta : MapEntry τ → UInt16
  | same delta | oneStack delta _ | chop delta _ | append delta _ | full delta _ _ => delta

/-- The shortest entry for locals and stack, given the locals of the entry before. -/
def between [DecidableEq τ] (delta : UInt16) (previous locals : List τ) : (stack : List τ) → MapEntry τ
  | [] =>
    if locals.isPrefixOf previous ∧ previous.length - locals.length < 4 then
      if previous.length = locals.length then same delta
      else chop delta (previous.length - locals.length)
    else if previous.isPrefixOf locals ∧ locals.length - previous.length < 4 then
      append delta (locals.drop previous.length)
    else full delta locals []
  | [entry] => if locals = previous then oneStack delta entry else full delta locals [entry]
  | stack => full delta locals stack

def traverse {m : Type → Type} [Monad m] (f : τ → m τ') : MapEntry τ → m (MapEntry τ')
  | same delta => pure (same delta)
  | oneStack delta stack => return oneStack delta (← f stack)
  | chop delta count => pure (chop delta count)
  | append delta locals => return append delta (← locals.mapM f)
  | full delta locals stack => do
    let locals ← locals.mapM f
    let stack ← stack.mapM f
    return full delta locals stack

/-- The entry as it stands in messages. -/
def text (typeText : τ → String) : MapEntry τ → String
  | same delta => s!"SameLocalsNoStack \x7b offset_delta: {delta.toNat} \x7d"
  | oneStack delta stack =>
    s!"SameLocalsOneStack \x7b offset_delta: {delta.toNat}, stack: {typeText stack} \x7d"
  | chop delta count =>
    s!"ChopLocalsNoStack \x7b offset_delta: {delta.toNat}, chopped_k: {count} \x7d"
  | append delta locals =>
    s!"AppendLocalsNoStack \x7b offset_delta: {delta.toNat}, locals: {listText locals} \x7d"
  | full delta locals stack =>
    s!"Full \x7b offset_delta: {delta.toNat}, locals: {listText locals}, stack: {listText stack} \x7d"
where
  listText (types : List τ) : String := "[" ++ ", ".intercalate (types.map typeText) ++ "]"

end MapEntry

end JvmAssembler
