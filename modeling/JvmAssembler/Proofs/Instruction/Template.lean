import JvmAssembler.Mnemonic
import JvmAssembler.Proofs.Instruction.Decode
import JvmAssembler.Proofs.Text.Numeral
import Mathlib.Tactic.IntervalCases

/-! A mnemonic is looked up in one family after another. Each family has a finite list of templates,
and each template has a spelling. A family that knows a mnemonic gives one of its templates, and the
mnemonic is the spelling of that template. The one exception are small constants: their number may
be written with zeros and a plus sign in front. -/

namespace JvmAssembler

namespace Template

/-- The families in which mnemonics are looked up. -/
inductive Family where
  | constants | locals | stack | arithmetic | control | objects
deriving DecidableEq

namespace Family

/-- All families, in the order in which they are asked. -/
def all : List Family := [constants, locals, stack, arithmetic, control, objects]

theorem mem_all (f : Family) : f ∈ all := by
  cases f <;> decide

def lookup : Family → String → Option Template
  | constants => ofConstant?
  | locals => ofLocal?
  | stack => ofStack?
  | arithmetic => ofArithmetic?
  | control => ofControl?
  | objects => ofObject?

open Decode (numericKinds integralKinds valueKinds arrayKinds comparisons)

/-- The templates of a family. -/
def templates : Family → List Template
  | constants =>
    [[.operation .nop, .operation .nullConst],
      [-1, 0, 1, 2, 3, 4, 5].map fun n => .operation (.intConst n),
      [0, 1].map fun n => .operation (.longConst n),
      [0, 1, 2].map fun n => .operation (.floatConst n),
      [0, 1].map fun n => .operation (.doubleConst n),
      [.bytePush, .shortPush, .ldc .narrow, .ldc .wide, .ldc .double]].flatten
  | locals =>
    [valueKinds.map fun kind => .load kind none,
      valueKinds.flatMap fun kind => [0, 1, 2, 3].map fun index => .load kind (some index),
      valueKinds.map fun kind => .store kind none,
      valueKinds.flatMap fun kind => [0, 1, 2, 3].map fun index => .store kind (some index),
      [.increment]].flatten
  | stack =>
    [.pop, .pop2, .dup, .dupX1, .dupX2, .dup2, .dup2X1, .dup2X2, .swap].map
      fun op => .operation (.stack op)
  | arithmetic =>
    [[.add, .sub, .mul, .div, .rem].flatMap fun op =>
        numericKinds.map fun kind => .operation (.arithmetic kind op),
      numericKinds.map fun kind => .operation (.negate kind),
      [.left, .arithmeticRight, .logicalRight].flatMap fun op =>
        integralKinds.map fun kind => .operation (.shift kind op),
      [.and, .or, .xor].flatMap fun op =>
        integralKinds.map fun kind => .operation (.bitwise kind op),
      numericKinds.flatMap fun source =>
        (numericKinds.filter (· != source)).map fun target => .operation (.convert source target),
      [.byte, .char, .short].map fun target => .operation (.narrowInt target),
      [.compareLongs, .compareFloats .less, .compareFloats .greater, .compareDoubles .less,
        .compareDoubles .greater].map .operation].flatten
  | control =>
    [comparisons.map fun comparison => .jump (.ifZero comparison),
      comparisons.map fun comparison => .jump (.ifInts comparison),
      [.ifReferences .eq, .ifReferences .ne, .ifNull .eq, .ifNull .ne, .goto, .gotoWide].map .jump,
      [.tableSwitch, .lookupSwitch],
      valueKinds.map fun kind => .returns (some kind),
      [.returns none, .plain (.branch .throws)]].flatten
  | objects =>
    [arrayKinds.map fun kind => .operation (.arrayLoad kind),
      arrayKinds.map fun kind => .operation (.arrayStore kind),
      [.getStatic, .putStatic, .getField, .putField].map .field,
      [.virtual, .special, .static, .interface 0].map .invoke,
      [.classUse .new, .newArray, .classUse .newArray, .operation .arrayLength,
        .classUse .checkCast, .classUse .instanceOf, .operation .monitorEnter,
        .operation .monitorExit, .multiArray]].flatten

/-! The parts of the lists that hold a template for every kind. -/

theorem mem_numericKinds (kind : NumericKind) : kind ∈ numericKinds := by
  cases kind <;> decide

theorem mem_valueKinds (kind : ValueKind) : kind ∈ valueKinds := by
  rcases kind with (_ | _ | _ | _) | _ <;> decide

theorem mem_arrayKinds (kind : ArrayKind) : kind ∈ arrayKinds := by
  rcases kind with ((_ | _ | _ | _) | _) | _ | _ | _ <;> decide

theorem load_mem (kind : ValueKind) : load kind none ∈ locals.templates :=
  List.mem_flatten_of_mem (.head _) (List.mem_map_of_mem (mem_valueKinds kind))

theorem load_short_mem (kind : ValueKind) {index : UInt16} (h : index ∈ [(0 : UInt16), 1, 2, 3]) :
    load kind (some index) ∈ locals.templates :=
  List.mem_flatten_of_mem (.tail _ (.head _))
    (List.mem_flatMap_of_mem (mem_valueKinds kind) (List.mem_map_of_mem h))

theorem store_mem (kind : ValueKind) : store kind none ∈ locals.templates :=
  List.mem_flatten_of_mem (.tail _ (.tail _ (.head _))) (List.mem_map_of_mem (mem_valueKinds kind))

theorem store_short_mem (kind : ValueKind) {index : UInt16} (h : index ∈ [(0 : UInt16), 1, 2, 3]) :
    store kind (some index) ∈ locals.templates :=
  List.mem_flatten_of_mem (.tail _ (.tail _ (.tail _ (.head _))))
    (List.mem_flatMap_of_mem (mem_valueKinds kind) (List.mem_map_of_mem h))

theorem arithmetic_mem (kind : NumericKind) (op : ArithmeticOp) :
    operation (.arithmetic kind op) ∈ arithmetic.templates :=
  List.mem_flatten_of_mem (.head _)
    (List.mem_flatMap_of_mem (by cases op <;> decide) (List.mem_map_of_mem (mem_numericKinds kind)))

theorem negate_mem (kind : NumericKind) : operation (.negate kind) ∈ arithmetic.templates :=
  List.mem_flatten_of_mem (.tail _ (.head _)) (List.mem_map_of_mem (mem_numericKinds kind))

theorem shift_mem {kind : NumericKind} (h : kind ∈ integralKinds) (op : ShiftOp) :
    operation (.shift kind op) ∈ arithmetic.templates :=
  List.mem_flatten_of_mem (.tail _ (.tail _ (.head _)))
    (List.mem_flatMap_of_mem (by cases op <;> decide) (List.mem_map_of_mem h))

theorem bitwise_mem {kind : NumericKind} (h : kind ∈ integralKinds) (op : BitwiseOp) :
    operation (.bitwise kind op) ∈ arithmetic.templates :=
  List.mem_flatten_of_mem (.tail _ (.tail _ (.tail _ (.head _))))
    (List.mem_flatMap_of_mem (by cases op <;> decide) (List.mem_map_of_mem h))

theorem convert_mem {source target : NumericKind} (h : target ≠ source) :
    operation (.convert source target) ∈ arithmetic.templates := by
  have htarget : target ∈ numericKinds.filter (· != source) :=
    List.mem_filter.mpr ⟨mem_numericKinds target, by simpa using h⟩
  exact List.mem_flatten_of_mem (.tail _ (.tail _ (.tail _ (.tail _ (.head _)))))
    (List.mem_flatMap_of_mem (mem_numericKinds source) (List.mem_map_of_mem htarget))

theorem narrowInt_mem (target : NarrowInt) :
    operation (.narrowInt target) ∈ arithmetic.templates :=
  List.mem_flatten_of_mem (.tail _ (.tail _ (.tail _ (.tail _ (.tail _ (.head _))))))
    (List.mem_map_of_mem (by cases target <;> decide))

theorem compare_mem {op : Operation Empty}
    (h : op ∈ [.compareLongs, .compareFloats .less, .compareFloats .greater, .compareDoubles .less,
      .compareDoubles .greater]) : operation op ∈ arithmetic.templates :=
  List.mem_flatten_of_mem (.tail _ (.tail _ (.tail _ (.tail _ (.tail _ (.tail _ (.head _)))))))
    (List.mem_map_of_mem h)

theorem arrayLoad_mem (kind : ArrayKind) : operation (.arrayLoad kind) ∈ objects.templates :=
  List.mem_flatten_of_mem (.head _) (List.mem_map_of_mem (mem_arrayKinds kind))

theorem arrayStore_mem (kind : ArrayKind) : operation (.arrayStore kind) ∈ objects.templates :=
  List.mem_flatten_of_mem (.tail _ (.head _)) (List.mem_map_of_mem (mem_arrayKinds kind))

end Family

theorem ofMnemonic?_eq_findSome? (m : String) :
    ofMnemonic? m = Family.all.findSome? (·.lookup m) := by
  simp only [Family.all, List.findSome?, Family.lookup, ofMnemonic?]
  cases ofConstant? m <;> cases ofLocal? m <;> cases ofStack? m <;> cases ofArithmetic? m <;>
    cases ofControl? m <;> cases ofObject? m <;> rfl

end Template

def ArrayKind.letter : ArrayKind → Char
  | value kind => kind.letter
  | byte => 'b'
  | char => 'c'
  | short => 's'

def OrdComparison.suffix : OrdComparison → String
  | eq => "eq"
  | ne => "ne"
  | lt => "lt"
  | ge => "ge"
  | gt => "gt"
  | le => "le"

/-- A mnemonic that starts with the letter of a kind. -/
def spell (letter : Char) (rest : List Char) : String := .ofList (letter :: rest)

/-- The mnemonic of a small constant, or another text of its form. -/
def spellConstant (letter : Char) (numeral : List Char) : String :=
  spell letter ('c' :: 'o' :: 'n' :: 's' :: 't' :: '_' :: numeral)

/-- The mnemonic of an operation without operands. -/
def Operation.spelling : Operation Empty → String
  | nop => "nop"
  | nullConst => "aconst_null"
  | intConst n =>
    if n = -1 then "iconst_m1" else spellConstant 'i' [n.toNatClampNeg.digitChar]
  | longConst n => spellConstant 'l' [n.toNat.digitChar]
  | floatConst n => spellConstant 'f' [n.toNat.digitChar]
  | doubleConst n => spellConstant 'd' [n.toNat.digitChar]
  | arrayLoad kind => spell kind.letter ['a', 'l', 'o', 'a', 'd']
  | arrayStore kind => spell kind.letter ['a', 's', 't', 'o', 'r', 'e']
  | stack .pop => "pop"
  | stack .pop2 => "pop2"
  | stack .dup => "dup"
  | stack .dupX1 => "dup_x1"
  | stack .dupX2 => "dup_x2"
  | stack .dup2 => "dup2"
  | stack .dup2X1 => "dup2_x1"
  | stack .dup2X2 => "dup2_x2"
  | stack .swap => "swap"
  | arithmetic kind .add => spell kind.letter ['a', 'd', 'd']
  | arithmetic kind .sub => spell kind.letter ['s', 'u', 'b']
  | arithmetic kind .mul => spell kind.letter ['m', 'u', 'l']
  | arithmetic kind .div => spell kind.letter ['d', 'i', 'v']
  | arithmetic kind .rem => spell kind.letter ['r', 'e', 'm']
  | negate kind => spell kind.letter ['n', 'e', 'g']
  | shift kind .left => spell kind.letter ['s', 'h', 'l']
  | shift kind .arithmeticRight => spell kind.letter ['s', 'h', 'r']
  | shift kind .logicalRight => spell kind.letter ['u', 's', 'h', 'r']
  | bitwise kind .and => spell kind.letter ['a', 'n', 'd']
  | bitwise kind .or => spell kind.letter ['o', 'r']
  | bitwise kind .xor => spell kind.letter ['x', 'o', 'r']
  | convert source target => spell source.letter ['2', target.letter]
  | narrowInt .byte => "i2b"
  | narrowInt .char => "i2c"
  | narrowInt .short => "i2s"
  | compareLongs => "lcmp"
  | compareFloats .less => "fcmpl"
  | compareFloats .greater => "fcmpg"
  | compareDoubles .less => "dcmpl"
  | compareDoubles .greater => "dcmpg"
  | arrayLength => "arraylength"
  | monitorEnter => "monitorenter"
  | monitorExit => "monitorexit"
  | _ => ""

/-- The mnemonic of a template. -/
def Template.spelling : Template → String
  | plain (.operation op) => op.spelling
  | plain (.branch _) => "athrow"
  | returns (some kind) => spell kind.letter ['r', 'e', 't', 'u', 'r', 'n']
  | returns none => "return"
  | bytePush => "bipush"
  | shortPush => "sipush"
  | ldc .narrow => "ldc"
  | ldc .wide => "ldc_w"
  | ldc .double => "ldc2_w"
  | load kind none => spell kind.letter ['l', 'o', 'a', 'd']
  | load kind (some index) => spell kind.letter ['l', 'o', 'a', 'd', '_', index.toNat.digitChar]
  | store kind none => spell kind.letter ['s', 't', 'o', 'r', 'e']
  | store kind (some index) =>
    spell kind.letter ['s', 't', 'o', 'r', 'e', '_', index.toNat.digitChar]
  | increment => "iinc"
  | field .getStatic => "getstatic"
  | field .putStatic => "putstatic"
  | field .getField => "getfield"
  | field .putField => "putfield"
  | invoke .virtual => "invokevirtual"
  | invoke .special => "invokespecial"
  | invoke .static => "invokestatic"
  | invoke (.interface _) => "invokeinterface"
  | classUse .new => "new"
  | classUse .newArray => "anewarray"
  | classUse .checkCast => "checkcast"
  | classUse .instanceOf => "instanceof"
  | newArray => "newarray"
  | multiArray => "multianewarray"
  | jump (.ifZero comparison) => "if" ++ comparison.suffix
  | jump (.ifInts comparison) => "if_icmp" ++ comparison.suffix
  | jump (.ifReferences .eq) => "if_acmpeq"
  | jump (.ifReferences .ne) => "if_acmpne"
  | jump (.ifNull .eq) => "ifnull"
  | jump (.ifNull .ne) => "ifnonnull"
  | jump .goto => "goto"
  | jump .gotoWide => "goto_w"
  | tableSwitch => "tableswitch"
  | lookupSwitch => "lookupswitch"

/-! ### Letters of kinds -/

theorem NumericKind.eq_letter {c : Char} {kind : NumericKind} (h : ofLetter? c = some kind) :
    c = kind.letter := by
  unfold ofLetter? at h
  split at h <;> cases h <;> rfl

theorem ValueKind.eq_letter {c : Char} {kind : ValueKind} (h : ofLetter? c = some kind) :
    c = kind.letter := by
  unfold ofLetter? at h
  split at h
  · cases h
    rfl
  · obtain ⟨numeric, hnumeric, rfl⟩ := Option.map_eq_some_iff.mp h
    exact NumericKind.eq_letter hnumeric

theorem ArrayKind.eq_letter {c : Char} {kind : ArrayKind} (h : ofLetter? c = some kind) :
    c = kind.letter := by
  unfold ofLetter? at h
  split at h
  case h_4 =>
      obtain ⟨value, hvalue, rfl⟩ := Option.map_eq_some_iff.mp h
      exact ValueKind.eq_letter hvalue
  all_goals
    cases h
    rfl

theorem eq_spell {m : String} {letter : Char} {rest : List Char}
    (h : m.toList = letter :: rest) : m = spell letter rest := by
  rw [spell, ← h, String.ofList_toList]

namespace Template

variable {m : String} {t : Template}

/-- A text is the mnemonic of a small constant but for zeros, and a plus sign, before its number. -/
def Pads (m canonical : String) : Prop :=
  ∃ letter padding digit, Text.IsPadding padding ∧ m = spellConstant letter (padding ++ [digit]) ∧
    canonical = spellConstant letter [digit]

theorem of_ofSmallConstant? {letter : Char} {numeral : List Char}
    (h : ofSmallConstant? letter numeral = some t) :
    t ∈ Family.constants.templates ∧ ∃ padding digit, Text.IsPadding padding ∧
      numeral = padding ++ [digit] ∧ t.spelling = spellConstant letter [digit] := by
  obtain ⟨n, hn, h⟩ := Option.bind_eq_some_iff.mp h
  have hnumeral (hlt : n < 10) := (Text.readBelow?_eq_some_iff_of_lt hlt (by omega)).mp hn
  split at h
  case h_5 => cases h
  all_goals
    obtain ⟨hle, ⟨⟩⟩ := Option.ite_none_right_eq_some.mp h
    obtain ⟨padding, hpadding, rfl⟩ := hnumeral (by omega)
    refine ⟨?_, padding, n.digitChar, hpadding, rfl, ?_⟩ <;> interval_cases n <;> decide +kernel

/-- Padding does not matter to a small constant. -/
theorem ofSmallConstant?_padding {letter digit : Char} {padding : List Char}
    (hpadding : Text.IsPadding padding) (h : ofSmallConstant? letter [digit] = some t) :
    ofSmallConstant? letter (padding ++ [digit]) = some t := by
  obtain ⟨n, hn, hmake⟩ := Option.bind_eq_some_iff.mp h
  have hlt : n < 10 := by
    split at hmake
    case h_5 => cases hmake
    all_goals
      obtain ⟨hle, -⟩ := Option.ite_none_right_eq_some.mp hmake
      omega
  obtain ⟨before, -, hdigit⟩ := (Text.readBelow?_eq_some_iff_of_lt hlt (by omega)).mp hn
  obtain rfl : digit = n.digitChar := by
    have hlast := congrArg List.getLast? hdigit
    simpa using hlast
  have hread : Text.readBelow? 256 (padding ++ [n.digitChar]) = some n :=
    (Text.readBelow?_eq_some_iff_of_lt hlt (by omega)).mpr ⟨padding, hpadding, rfl⟩
  exact Option.bind_eq_some_iff.mpr ⟨n, hread, hmake⟩

/-- A text of the form of a small constant is none of the other constants. -/
theorem ofConstant?_spellConstant {letter digit : Char} {padding : List Char}
    (hpadding : Text.IsPadding padding) :
    ofConstant? (spellConstant letter (padding ++ [digit])) =
      ofSmallConstant? letter (padding ++ [digit]) := by
  have hlist (numeral) : (spellConstant letter numeral).toList =
      letter :: 'c' :: 'o' :: 'n' :: 's' :: 't' :: '_' :: numeral := String.toList_ofList
  unfold ofConstant?
  split
  case h_9 => simp only [hlist]
  all_goals
    rename_i h
    replace h := congrArg String.toList h
    rw [hlist] at h
    obtain ⟨zeros, rfl | rfl⟩ := hpadding <;> cases zeros <;> simp [List.replicate_succ] at h

/-- A family knows a mnemonic by one of its templates. -/
structure KnownBy (t : Template) (f : Family) (m : String) : Prop where
  mem : t ∈ f.templates
  spelled : m = t.spelling ∨ f = .constants ∧ Pads m t.spelling

theorem knownBy_ofConstant? (h : ofConstant? m = some t) : t.KnownBy .constants m := by
  unfold ofConstant? at h
  split at h
  case h_9 =>
      split at h
      · rename_i letter numeral hm
        obtain ⟨hmem, padding, digit, hpadding, rfl, ht⟩ := of_ofSmallConstant? h
        exact ⟨hmem, .inr ⟨rfl, letter, padding, digit, hpadding, eq_spell hm, ht⟩⟩
      · cases h
  all_goals
    cases h
    exact ⟨by decide, .inl rfl⟩

theorem of_shortIndex? {digits : List Char} {index : UInt16} (h : shortIndex? digits = some index) :
    digits = [index.toNat.digitChar] ∧ index ∈ [(0 : UInt16), 1, 2, 3] := by
  unfold shortIndex? at h
  split at h <;> cases h <;> exact ⟨rfl, by decide⟩

theorem knownBy_ofLocal? (h : ofLocal? m = some t) : t.KnownBy .locals m := by
  unfold ofLocal? at h
  split at h
  · rename_i hm
    cases h
    exact ⟨by decide, .inl (eq_spell hm)⟩
  · rename_i c rest hm
    obtain ⟨kind, hkind, h⟩ := Option.bind_eq_some_iff.mp h
    rw [ValueKind.eq_letter hkind] at hm
    split at h
    · cases h
      exact ⟨Family.load_mem kind, .inl (eq_spell hm)⟩
    · obtain ⟨index, hindex, rfl⟩ := Option.map_eq_some_iff.mp h
      obtain ⟨rfl, hmem⟩ := of_shortIndex? hindex
      exact ⟨Family.load_short_mem kind hmem, .inl (eq_spell hm)⟩
    · cases h
  · rename_i c rest hm
    obtain ⟨kind, hkind, h⟩ := Option.bind_eq_some_iff.mp h
    rw [ValueKind.eq_letter hkind] at hm
    split at h
    · cases h
      exact ⟨Family.store_mem kind, .inl (eq_spell hm)⟩
    · obtain ⟨index, hindex, rfl⟩ := Option.map_eq_some_iff.mp h
      obtain ⟨rfl, hmem⟩ := of_shortIndex? hindex
      exact ⟨Family.store_short_mem kind hmem, .inl (eq_spell hm)⟩
    · cases h
  · cases h

theorem knownBy_ofStack? (h : ofStack? m = some t) : t.KnownBy .stack m := by
  obtain ⟨op, hop, rfl⟩ := Option.map_eq_some_iff.mp h
  split at hop <;> cases hop <;> exact ⟨by decide, .inl rfl⟩

theorem of_ofNumeric? {kind : NumericKind} {name : List Char} {op : Operation Empty}
    (h : ofNumeric? kind name = some op) :
    operation op ∈ Family.arithmetic.templates ∧ op.spelling = spell kind.letter name := by
  unfold ofNumeric? at h
  split at h
  case h_6 =>
      cases h
      exact ⟨Family.negate_mem kind, rfl⟩
  case h_7 =>
      obtain ⟨target, htarget, h⟩ := Option.bind_eq_some_iff.mp h
      obtain ⟨hne, ⟨⟩⟩ := Option.ite_none_left_eq_some.mp h
      rw [NumericKind.eq_letter htarget]
      exact ⟨Family.convert_mem hne, rfl⟩
  all_goals cases h <;> exact ⟨Family.arithmetic_mem kind _, rfl⟩

theorem of_ofIntegral? {kind : NumericKind} {name : List Char} {op : Operation Empty}
    (h : ofIntegral? kind name = some op) :
    operation op ∈ Family.arithmetic.templates ∧ op.spelling = spell kind.letter name := by
  obtain ⟨hkind, h⟩ := Option.ite_none_right_eq_some.mp h
  have hmem : kind ∈ Decode.integralKinds := by simpa [Decode.integralKinds] using hkind
  split at h <;> cases h <;>
    first
    | exact ⟨Family.shift_mem hmem _, rfl⟩
    | exact ⟨Family.bitwise_mem hmem _, rfl⟩

theorem knownBy_ofArithmetic? (h : ofArithmetic? m = some t) : t.KnownBy .arithmetic m := by
  unfold ofArithmetic? at h
  split at h
  case h_9 =>
      split at h
      · cases h
      · rename_i c name hm
        obtain ⟨kind, hkind, h⟩ := Option.bind_eq_some_iff.mp h
        obtain ⟨op, hop, rfl⟩ := Option.map_eq_some_iff.mp h
        rw [NumericKind.eq_letter hkind] at hm
        rcases (Option.orElse_eq_some _ _ _).mp hop with hop | ⟨_, hop⟩
        · obtain ⟨hmem, hspelling⟩ := of_ofNumeric? hop
          exact ⟨hmem, .inl ((eq_spell hm).trans hspelling.symm)⟩
        · obtain ⟨hmem, hspelling⟩ := of_ofIntegral? hop
          exact ⟨hmem, .inl ((eq_spell hm).trans hspelling.symm)⟩
  all_goals
    cases h
    first
    | exact ⟨Family.narrowInt_mem _, .inl rfl⟩
    | exact ⟨Family.compare_mem (by decide), .inl rfl⟩

theorem knownBy_ofControl? (h : ofControl? m = some t) : t.KnownBy .control m := by
  unfold ofControl? at h
  split at h <;> cases h <;> exact ⟨by decide, .inl rfl⟩

theorem knownBy_ofObject? (h : ofObject? m = some t) : t.KnownBy .objects m := by
  unfold ofObject? at h
  split at h
  case h_18 =>
      split at h
      · rename_i c hm
        obtain ⟨kind, hkind, rfl⟩ := Option.map_eq_some_iff.mp h
        rw [ArrayKind.eq_letter hkind] at hm
        exact ⟨Family.arrayLoad_mem kind, .inl (eq_spell hm)⟩
      · rename_i c hm
        obtain ⟨kind, hkind, rfl⟩ := Option.map_eq_some_iff.mp h
        rw [ArrayKind.eq_letter hkind] at hm
        exact ⟨Family.arrayStore_mem kind, .inl (eq_spell hm)⟩
      · cases h
  all_goals
    cases h
    exact ⟨by decide, .inl rfl⟩

theorem Family.knownBy_of_lookup {f : Family} (h : f.lookup m = some t) : t.KnownBy f m := by
  cases f with
  | constants => exact knownBy_ofConstant? h
  | locals => exact knownBy_ofLocal? h
  | stack => exact knownBy_ofStack? h
  | arithmetic => exact knownBy_ofArithmetic? h
  | control => exact knownBy_ofControl? h
  | objects => exact knownBy_ofObject? h

theorem exists_lookup_of_ofMnemonic? (h : ofMnemonic? m = some t) :
    ∃ f : Family, f.lookup m = some t := by
  rw [ofMnemonic?_eq_findSome?] at h
  obtain ⟨f, -, hf⟩ := List.exists_of_findSome?_eq_some h
  exact ⟨f, hf⟩

theorem exists_mem_templates_of_ofMnemonic? (h : ofMnemonic? m = some t) :
    ∃ f : Family, t ∈ f.templates := by
  obtain ⟨f, hf⟩ := exists_lookup_of_ofMnemonic? h
  exact ⟨f, (f.knownBy_of_lookup hf).mem⟩

end Template

end JvmAssembler
