import JvmAssembler.Proofs.Instruction.Template
import Mathlib.Data.List.Perm.Basic

/-! The mnemonics that are recognised are those of the instruction set, without subroutines, dynamic
calls and the word `wide`, and besides them the mnemonics of small constants with zeros or a plus
sign before the number. Each mnemonic belongs to one family, so that the order in which families are
asked does not matter, and apart from padding no two mnemonics have the same template. -/

namespace JvmAssembler.Template

/-- The mnemonics of the instruction set that belong to a family. -/
def Family.mnemonics : Family → List String
  | .constants => [
    "nop", "aconst_null", "iconst_m1", "iconst_0", "iconst_1", "iconst_2", "iconst_3", "iconst_4",
    "iconst_5", "lconst_0", "lconst_1", "fconst_0", "fconst_1", "fconst_2", "dconst_0", "dconst_1",
    "bipush", "sipush", "ldc", "ldc_w", "ldc2_w"]
  | .locals => [
    "iload", "lload", "fload", "dload", "aload", "iload_0", "iload_1", "iload_2", "iload_3",
    "lload_0", "lload_1", "lload_2", "lload_3", "fload_0", "fload_1", "fload_2", "fload_3",
    "dload_0", "dload_1", "dload_2", "dload_3", "aload_0", "aload_1", "aload_2", "aload_3",
    "istore", "lstore", "fstore", "dstore", "astore", "istore_0", "istore_1", "istore_2",
    "istore_3", "lstore_0", "lstore_1", "lstore_2", "lstore_3", "fstore_0", "fstore_1", "fstore_2",
    "fstore_3", "dstore_0", "dstore_1", "dstore_2", "dstore_3", "astore_0", "astore_1", "astore_2",
    "astore_3", "iinc"]
  | .stack => ["pop", "pop2", "dup", "dup_x1", "dup_x2", "dup2", "dup2_x1", "dup2_x2", "swap"]
  | .arithmetic => [
    "iadd", "ladd", "fadd", "dadd", "isub", "lsub", "fsub", "dsub", "imul", "lmul", "fmul", "dmul",
    "idiv", "ldiv", "fdiv", "ddiv", "irem", "lrem", "frem", "drem", "ineg", "lneg", "fneg", "dneg",
    "ishl", "lshl", "ishr", "lshr", "iushr", "lushr", "iand", "land", "ior", "lor", "ixor", "lxor",
    "i2l", "i2f", "i2d", "l2i", "l2f", "l2d", "f2i", "f2l", "f2d", "d2i", "d2l", "d2f",
    "i2b", "i2c", "i2s", "lcmp", "fcmpl", "fcmpg", "dcmpl", "dcmpg"]
  | .control => [
    "ifeq", "ifne", "iflt", "ifge", "ifgt", "ifle", "if_icmpeq", "if_icmpne", "if_icmplt",
    "if_icmpge", "if_icmpgt", "if_icmple", "if_acmpeq", "if_acmpne", "ifnull", "ifnonnull",
    "goto", "goto_w", "tableswitch", "lookupswitch", "ireturn", "lreturn", "freturn", "dreturn",
    "areturn", "return", "athrow"]
  | .objects => [
    "iaload", "laload", "faload", "daload", "aaload", "baload", "caload", "saload",
    "iastore", "lastore", "fastore", "dastore", "aastore", "bastore", "castore", "sastore",
    "getstatic", "putstatic", "getfield", "putfield", "invokevirtual", "invokespecial",
    "invokestatic", "invokeinterface", "new", "newarray", "anewarray", "arraylength", "checkcast",
    "instanceof", "monitorenter", "monitorexit", "multianewarray"]

/-- The mnemonics that no family has: subroutines, dynamic calls, and the word `wide`, which belongs
to the instruction after it. -/
def excluded : List String := ["jsr", "jsr_w", "ret", "invokedynamic", "wide"]

/-- The mnemonics of the instruction set, one for each opcode from 0 to 201. Reserved opcodes are
above. -/
def instructionSet : List String := Family.all.flatMap Family.mnemonics ++ excluded

def Supported (m : String) : Prop := m ∈ instructionSet ∧ m ∉ excluded

/-- The mnemonic of a small constant with zeros, or a plus sign and zeros, before its number. -/
def Padded (m : String) : Prop :=
  ∃ letter padding digit, padding ≠ [] ∧ Text.IsPadding padding ∧
    m = spellConstant letter (padding ++ [digit]) ∧
      spellConstant letter [digit] ∈ Family.constants.mnemonics

variable {m m' : String} {t t' : Template} {f g : Family}

theorem Family.mnemonics_eq (f : Family) : f.mnemonics = f.templates.map spelling := by
  cases f <;> rfl

theorem ofMnemonic?_spelling (f : Family) : ∀ t ∈ f.templates, ofMnemonic? t.spelling = some t := by
  cases f <;> decide +kernel

theorem ofMnemonic?_of_mem_excluded : ∀ m ∈ excluded, ofMnemonic? m = none := by
  decide +kernel

theorem supported_iff : Supported m ↔ ∃ f : Family, m ∈ f.mnemonics := by
  have hset : m ∈ instructionSet ↔ (∃ f : Family, m ∈ f.mnemonics) ∨ m ∈ excluded := by
    simp [instructionSet, Family.mem_all]
  rw [Supported, hset]
  constructor
  · rintro ⟨h | h, hnot⟩
    · exact h
    · exact absurd h hnot
  · rintro ⟨f, h⟩
    refine ⟨.inl ⟨f, h⟩, fun hexcluded => ?_⟩
    rw [f.mnemonics_eq] at h
    obtain ⟨t, ht, rfl⟩ := List.mem_map.mp h
    have hnone := ofMnemonic?_of_mem_excluded _ hexcluded
    rw [ofMnemonic?_spelling f t ht] at hnone
    cases hnone

theorem supported_spelling (h : t ∈ f.templates) : Supported t.spelling :=
  supported_iff.mpr ⟨f, f.mnemonics_eq ▸ List.mem_map_of_mem h⟩

theorem Supported.exists_spelling (h : Supported m) :
    ∃ (f : Family) (t : Template), t ∈ f.templates ∧ m = t.spelling := by
  obtain ⟨f, hf⟩ := supported_iff.mp h
  rw [f.mnemonics_eq] at hf
  obtain ⟨t, ht, rfl⟩ := List.mem_map.mp hf
  exact ⟨f, t, ht, rfl⟩

/-- What one family knows is found whichever families are asked before it. -/
theorem ofMnemonic?_of_lookup (h : f.lookup m = some t) : ofMnemonic? m = some t := by
  obtain ⟨hmem, rfl | ⟨rfl, -⟩⟩ := f.knownBy_of_lookup h
  · exact ofMnemonic?_spelling f t hmem
  · exact (Option.orElse_eq_some _ _ _).mpr (.inl h)

/-- The family of an operation that a mnemonic tells. -/
def operationFamily : Operation Empty → Family
  | .nop | .nullConst | .intConst _ | .longConst _ | .floatConst _ | .doubleConst _ => .constants
  | .stack _ => .stack
  | .arrayLoad _ | .arrayStore _ | .arrayLength | .monitorEnter | .monitorExit => .objects
  | _ => .arithmetic

def family : Template → Family
  | plain (.operation op) => operationFamily op
  | bytePush | shortPush | ldc _ => .constants
  | load _ _ | store _ _ | increment => .locals
  | plain (.branch _) | returns _ | jump _ | tableSwitch | lookupSwitch => .control
  | field _ | invoke _ | classUse _ | newArray | multiArray => .objects

theorem family_of_mem (f : Family) : ∀ t ∈ f.templates, t.family = f := by
  cases f <;> decide

theorem Family.lookup_spelling (h : t ∈ f.templates) : f.lookup t.spelling = some t := by
  obtain ⟨g, hg⟩ := exists_lookup_of_ofMnemonic? (ofMnemonic?_spelling f t h)
  have hmem := (g.knownBy_of_lookup hg).mem
  rwa [← family_of_mem g t hmem, family_of_mem f t h] at hg

/-- At most one family knows a mnemonic. -/
theorem Family.eq_of_lookup (hf : f.lookup m = some t) (hg : g.lookup m = some t') : f = g := by
  have heq : some t = some t' := (ofMnemonic?_of_lookup hf).symm.trans (ofMnemonic?_of_lookup hg)
  cases heq
  rw [← family_of_mem f t (f.knownBy_of_lookup hf).mem,
    ← family_of_mem g t (g.knownBy_of_lookup hg).mem]

theorem findSome?_lookup_of_perm {order : List Family} (h : order.Perm Family.all) (m : String) :
    order.findSome? (·.lookup m) = ofMnemonic? m := by
  cases hfind : order.findSome? (·.lookup m) with
  | some t =>
      obtain ⟨f, -, hf⟩ := List.exists_of_findSome?_eq_some hfind
      exact (ofMnemonic?_of_lookup hf).symm
  | none =>
      rw [List.findSome?_eq_none_iff] at hfind
      symm
      rw [ofMnemonic?_eq_findSome?, List.findSome?_eq_none_iff]
      exact fun f hf => hfind f (h.mem_iff.mpr hf)

theorem spellConstant_inj {letter letter' : Char} {numeral numeral' : List Char}
    (h : spellConstant letter numeral = spellConstant letter' numeral') :
    letter = letter' ∧ numeral = numeral' := by
  have hlists := String.ofList_injective h
  simpa using hlists

theorem Padded.exists_spelling (h : Padded m) :
    ∃ t ∈ Family.constants.templates, ofMnemonic? m = some t ∧ m ≠ t.spelling := by
  obtain ⟨letter, padding, digit, hne, hpadding, rfl, hmem⟩ := h
  rw [Family.mnemonics_eq] at hmem
  obtain ⟨t, ht, hspelling⟩ := List.mem_map.mp hmem
  refine ⟨t, ht, ?_, ?_⟩
  · have hnone : Text.IsPadding [] := ⟨0, .inl rfl⟩
    have hdigit : ofConstant? t.spelling = some t := Family.lookup_spelling ht
    rw [hspelling, ← List.nil_append [digit], ofConstant?_spellConstant hnone] at hdigit
    have hlookup : Family.constants.lookup (spellConstant letter (padding ++ [digit])) = some t :=
      (ofConstant?_spellConstant hpadding).trans (ofSmallConstant?_padding hpadding hdigit)
    exact ofMnemonic?_of_lookup hlookup
  · intro heq
    rw [hspelling] at heq
    exact hne (by simpa using (spellConstant_inj heq).2)

theorem eq_spelling_or_padded (h : ofMnemonic? m = some t) : m = t.spelling ∨ Padded m := by
  obtain ⟨f, hf⟩ := exists_lookup_of_ofMnemonic? h
  obtain ⟨hmem, heq | ⟨rfl, letter, padding, digit, hpadding, rfl, hspelling⟩⟩ :=
    f.knownBy_of_lookup hf
  · exact .inl heq
  · rw [hspelling]
    by_cases hne : padding = []
    · exact .inl (by rw [hne, List.nil_append])
    · refine .inr ⟨letter, padding, digit, hne, hpadding, rfl, ?_⟩
      rw [Family.mnemonics_eq, ← hspelling]
      exact List.mem_map_of_mem hmem

theorem isSome_ofMnemonic?_iff : (ofMnemonic? m).isSome ↔ Supported m ∨ Padded m := by
  rw [Option.isSome_iff_exists]
  constructor
  · rintro ⟨t, ht⟩
    obtain rfl | hpadded := eq_spelling_or_padded ht
    · obtain ⟨f, hf⟩ := exists_mem_templates_of_ofMnemonic? ht
      exact .inl (supported_spelling hf)
    · exact .inr hpadded
  · rintro (h | h)
    · obtain ⟨f, t, ht, rfl⟩ := h.exists_spelling
      exact ⟨t, ofMnemonic?_spelling f t ht⟩
    · obtain ⟨t, -, ht, -⟩ := h.exists_spelling
      exact ⟨t, ht⟩

/-- Padding makes a text that is not in the instruction set. -/
theorem Padded.not_mem_instructionSet (h : Padded m) : m ∉ instructionSet := by
  intro hset
  obtain ⟨t, -, ht, hne⟩ := h.exists_spelling
  by_cases hexcluded : m ∈ excluded
  · rw [ofMnemonic?_of_mem_excluded m hexcluded] at ht
    cases ht
  · obtain ⟨f, t', ht', heq⟩ := Supported.exists_spelling ⟨hset, hexcluded⟩
    have hfound := ofMnemonic?_spelling f t' ht'
    rw [← heq, ht] at hfound
    cases hfound
    exact hne heq

/-- The mnemonics of the instruction set are recognised, but for the excluded ones, and so are padded
mnemonics of small constants and nothing else. No two families know the same mnemonic, in whichever
order they are asked. Two mnemonics with the same template are the same unless one is padded. -/
theorem ofMnemonic?_exact (m : String) :
    ((ofMnemonic? m).isSome ↔ (m ∈ instructionSet ∧ m ∉ excluded) ∨ Padded m) ∧
    (Padded m → m ∉ instructionSet) ∧
    (∀ f g : Family, (f.lookup m).isSome → (g.lookup m).isSome → f = g) ∧
    (∀ order : List Family, order.Perm Family.all →
      order.findSome? (·.lookup m) = ofMnemonic? m) ∧
    (∀ m' t, ofMnemonic? m = some t → ofMnemonic? m' = some t → m = m' ∨ Padded m ∨ Padded m') := by
  refine ⟨isSome_ofMnemonic?_iff, Padded.not_mem_instructionSet, ?_, ?_, ?_⟩
  · intro f g hf hg
    obtain ⟨t, ht⟩ := Option.isSome_iff_exists.mp hf
    obtain ⟨t', ht'⟩ := Option.isSome_iff_exists.mp hg
    exact Family.eq_of_lookup ht ht'
  · intro order horder
    exact findSome?_lookup_of_perm horder m
  · intro m' t h h'
    obtain heq | hpadded := eq_spelling_or_padded h
    · obtain heq' | hpadded' := eq_spelling_or_padded h'
      · exact .inl (heq.trans heq'.symm)
      · exact .inr (.inr hpadded')
    · exact .inr (.inl hpadded)

/-- A padded mnemonic is recognised though it is not in the instruction set, and it shares the
template of the mnemonic without padding. -/
theorem ofMnemonic?_iconst_05 :
    "iconst_05" ∉ instructionSet ∧ ofMnemonic? "iconst_05" = some (operation (.intConst 5)) ∧
      ofMnemonic? "iconst_5" = some (operation (.intConst 5)) := by
  decide +kernel

end JvmAssembler.Template
