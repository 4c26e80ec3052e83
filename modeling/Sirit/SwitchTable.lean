import Sirit.Assembled

/- The case table of a switch: every literal takes the words of its alternative, and its
   label the next one. A reader that knows the alternatives gets both lists back. -/
namespace Sirit
open Framing
variable (pf : Platform)

inductive LiteralKind where
  | u32
  | u64
  | s32
  | s64
  | float
  | double
  deriving DecidableEq

def Literal.kind : Literal → LiteralKind
  | .u32 _ => .u32
  | .u64 _ => .u64
  | .s32 _ => .s32
  | .s64 _ => .s64
  | .float _ => .float
  | .double _ => .double

def readLiteral : LiteralKind → List U32 → Option (Literal × List U32)
  | .u32, word :: ws => some (.u32 word, ws)
  | .s32, word :: ws => some (.s32 word, ws)
  | .float, word :: ws => some (.float word, ws)
  | .u64, low :: high :: ws => some (.u64 (high ++ low), ws)
  | .s64, low :: high :: ws => some (.s64 (high ++ low), ws)
  | .double, low :: high :: ws => some (.double (high ++ low), ws)
  | _, _ => none

def readArm (kind : LiteralKind) (ws : List U32) : Option ((Literal × Id) × List U32) :=
  match readLiteral kind ws with
  | some (literal, label :: ws) => some ((literal, ⟨label⟩), ws)
  | _ => none

def readSwitch (kinds : List LiteralKind) : List U32 → Option (Id × Id × List Literal × List Id)
  | header :: selector :: defaultLabel :: table =>
      if headerOpcode header = pf.opcode .opSwitch ∧ wordCount header = table.length + 3 then
        match readFields readArm kinds table with
        | some (arms, []) => some (⟨selector⟩, ⟨defaultLabel⟩, arms.unzip)
        | _ => none
      else none
  | _ => none

def armWords (arm : Literal × Id) : List U32 := arm.1.words ++ [arm.2.value]

theorem halves_append (v : U64) : (v >>> 32).setWidth 32 ++ v.setWidth 32 = v := by
  apply BitVec.eq_of_getLsbD_eq
  intro i hi
  rw [BitVec.getLsbD_append]
  by_cases low : i < 32
  · simp [low]
  · simp only [low, if_false, BitVec.getLsbD_setWidth,
      BitVec.getLsbD_ushiftRight, show i - 32 < 32 by omega, show 32 + (i - 32) = i by omega,
      decide_true, Bool.true_and]

theorem readLiteral_words (l : Literal) (rest : List U32) :
    readLiteral l.kind (l.words ++ rest) = some (l, rest) := by
  cases l with
  | u64 value | s64 value | double value =>
    simp only [Literal.kind, Literal.words, List.cons_append, List.nil_append, readLiteral,
      halves_append]
  | u32 _ | s32 _ | float _ => rfl

theorem readArm_words (arm : Literal × Id) (rest : List U32) :
    readArm arm.1.kind (armWords arm ++ rest) = some (arm, rest) := by
  simp only [readArm, armWords, List.append_assoc, readLiteral_words, List.cons_append]
  rfl

theorem flatMap_armWords_length (arms : List (Literal × Id)) :
    (arms.flatMap armWords).length = (arms.map fun arm => arm.1.width + 1).sum := by
  simp only [List.length_flatMap, armWords, List.length_append, Literal.words_length,
    List.length_singleton]

/-- A switch appends its header, the selector, the default label, and for each pair in order
    the words of the literal and the label; a reader that knows the alternatives of the
    literals gets everything back. -/
theorem switch_round_trips (m : Module) (selector defaultLabel : Id)
    (literals : List Literal) (labels : List Id) (paired : literals.length = labels.length)
    (short : 3 + ((literals.zip labels).map fun arm => arm.1.width + 1).sum ≤ 65535) :
    ∃ header table,
      (m.exec pf (.flow (.opSwitch selector defaultLabel literals labels))).2.code.written =
        m.code.written ++ header :: selector.value :: defaultLabel.value :: table ∧
      headerOpcode header = pf.opcode .opSwitch ∧ wordCount header = 3 + table.length ∧
      table = (literals.zip labels).flatMap (fun arm => arm.1.words ++ [arm.2.value]) ∧
      (∀ l ∈ literals, l.words.length = if l.Wide then 2 else 1) ∧
      readSwitch pf (literals.map Literal.kind)
        (header :: selector.value :: defaultLabel.value :: table) =
          some (selector, defaultLabel, literals, labels) := by
  obtain ⟨arms, zipped⟩ : ∃ arms, arms = literals.zip labels := ⟨_, rfl⟩
  have kinds : literals.map Literal.kind = arms.map fun arm => arm.1.kind := by
    have firsts : arms.map Prod.fst = literals := by
      rw [zipped]
      exact List.map_fst_zip (Nat.le_of_eq paired)
    rw [← firsts, List.map_map]
    rfl
  have long : 3 + (arms.flatMap armWords).length ≤ 65535 := by
    rw [flatMap_armWords_length, zipped]
    exact short
  have table : operandWords pf (arms.flatMap fun arm => [.literal arm.1, .id arm.2]) =
      arms.flatMap armWords := operandWords_arms pf arms
  obtain ⟨header, head⟩ : ∃ header,
      header = makeWord0 (pf.op .opSwitch) (3 + (arms.flatMap armWords).length) := ⟨_, rfl⟩
  have opcode : headerOpcode header = pf.opcode .opSwitch := by
    rw [head, headerOpcode_makeWord0]
  have count : wordCount header = 3 + (arms.flatMap armWords).length := by
    rw [head, wordCount_makeWord0 pf .opSwitch long]
  refine ⟨header, arms.flatMap armWords, ?_, opcode, count, ?_, ?_, ?_⟩
  · have written := Stream.written_emit pf
      (FlowCall.opSwitch selector defaultLabel literals labels).emission m.code m.bound
    refine written.trans ?_
    simp only [FlowCall.emission, Emission.instruction, Instruction.words, Instruction.tail,
      typeWords_none, ← zipped, operandWords_cons, table, Operand.words, Option.toList_none,
      List.nil_append, List.cons_append, List.length_cons,
      head]
    rw [Nat.add_comm 3]
  · rw [zipped]
    rfl
  · intro l _
    rw [l.words_length]
    cases l <;> simp [Literal.width, Literal.Wide]
  · have fields := readFields_flatMap readArm (fun arm => arm.1.kind) armWords
      (fun arm (_ : arm ∈ arms) => readArm_words arm) []
    rw [List.append_nil] at fields
    simp only [readSwitch, opcode, count, kinds, fields, Nat.add_comm 3, and_self, if_true]
    rw [zipped, List.unzip_zip paired]

theorem switch_round_trips_mixed : ∃ header table,
    ((Module.new linuxX86 0).exec linuxX86 (.flow (.opSwitch ⟨1⟩ ⟨2⟩
        [.s32 (-1), .u64 0x500000007] [⟨3⟩, ⟨4⟩]))).2.code.written =
      (Module.new linuxX86 0).code.written ++ header :: 1 :: 2 :: table ∧
    readSwitch linuxX86 [.s32, .u64] (header :: 1 :: 2 :: table) =
      some (⟨1⟩, ⟨2⟩, [.s32 (-1), .u64 0x500000007], [⟨3⟩, ⟨4⟩]) := by
  obtain ⟨header, table, written, _, _, _, _, back⟩ := switch_round_trips linuxX86
    (Module.new linuxX86 0) ⟨1⟩ ⟨2⟩ [.s32 (-1), .u64 0x500000007] [⟨3⟩, ⟨4⟩] rfl (by decide)
  exact ⟨header, table, written, back⟩

end Sirit
