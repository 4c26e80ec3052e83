import Mathlib.Algebra.GroupWithZero.Nat
import Sirit.Module

/- What one stream expression appends. An instruction is the opcode, the result type, the
   result id and the operand words; its first word carries the opcode and the length. -/
namespace Sirit
open VectorCursor
variable (pf : Platform)

def Literal.words : Literal → List U32
  | .u32 value => [value]
  | .s32 value => [value]
  | .float bits => [bits]
  | .u64 value => [value.setWidth 32, (value >>> 32).setWidth 32]
  | .s64 value => [value.setWidth 32, (value >>> 32).setWidth 32]
  | .double bits => [bits.setWidth 32, (bits >>> 32).setWidth 32]

def Literal.width : Literal → Nat
  | .u32 _ | .s32 _ | .float _ => 1
  | .u64 _ | .s64 _ | .double _ => 2

theorem Literal.words_length (l : Literal) : l.words.length = l.width := by cases l <;> rfl

theorem Literal.width_eq (l : Literal) : l.width = 1 + if l.Wide then 1 else 0 := by
  cases l <;> simp [Literal.width, Literal.Wide]

def stringWords (signed : Bool) (string : List U8) : List U32 :=
  ((List.range ((string.length + 3) / 4)).map fun k => stringWord signed string (4 * k)) ++
    if string.length % 4 = 0 then [0] else []

theorem stringWords_length (signed : Bool) (string : List U8) :
    (stringWords signed string).length = wordsInString string := by
  simp only [stringWords, wordsInString, List.length_append, List.length_map,
    List.length_range]
  split <;> simp <;> omega

theorem insertStringView_eq (signed : Bool) (string : List U8) (c : Cursor U32) :
    insertStringView signed string c = c.putAll (stringWords signed string) := by
  simp only [insertStringView, stringWords, Cursor.putAll_append]
  have loop : (List.range ((string.length + 3) / 4)).foldl
      (fun c k => c.put (stringWord signed string (4 * k))) c =
      c.putAll ((List.range ((string.length + 3) / 4)).map
        fun k => stringWord signed string (4 * k)) := by
    rw [Cursor.putAll, List.foldl_map]
  rw [loop]
  split <;> rfl

/-- The vector is made just large enough, so no word is lost or left over. -/
theorem insertExtension_eq (words : List U32) (extensionName : List U8) :
    insertExtension pf words extensionName =
      words ++ makeWord0 (pf.op .opExtension) (wordsInString extensionName + 1) ::
        stringWords pf.charSigned extensionName := by
  simp only [insertExtension, insertStringView_eq]
  rw [Cursor.words_putAll]
  · rw [Cursor.written, List.take_left, List.append_assoc]
    rfl
  · rw [stringWords_length]
    simp only [Cursor.slack, List.length_append, List.length_replicate]
    omega

def Operand.words : Operand → List U32
  | .u32 value => [value]
  | .s32 value => [value]
  | .bool value => [if value then 1 else 0]
  | .id value => [value.value]
  | .literal l => l.words
  | .string s => stringWords pf.charSigned s
  | .enum value => [value]

def Operand.width : Operand → Nat
  | .literal l => l.width
  | .string s => wordsInString s
  | _ => 1

theorem Operand.words_length (o : Operand) : (o.words pf).length = o.width := by
  cases o with
  | literal l => exact l.words_length
  | string s => exact stringWords_length _ s
  | _ => rfl

def operandWords (operands : List Operand) : List U32 := operands.flatMap (Operand.words pf)

def operandsWidth (operands : List Operand) : Nat := (operands.map Operand.width).sum

@[simp] theorem operandWords_nil : operandWords pf [] = [] := rfl

@[simp] theorem operandWords_cons (o : Operand) (operands : List Operand) :
    operandWords pf (o :: operands) = o.words pf ++ operandWords pf operands := rfl

@[simp] theorem operandWords_append (first second : List Operand) :
    operandWords pf (first ++ second) = operandWords pf first ++ operandWords pf second :=
  List.flatMap_append

@[simp] theorem operandWords_span_id (ids : List Id) :
    operandWords pf (span .id ids) = ids.map Id.value := by
  induction ids with
  | nil => rfl
  | cons i ids ih => exact congrArg (i.value :: ·) ih

@[simp] theorem operandWords_span_literal (literals : List Literal) :
    operandWords pf (span .literal literals) = literals.flatMap Literal.words := by
  induction literals with
  | nil => rfl
  | cons l literals ih => exact congrArg (l.words ++ ·) ih

@[simp] theorem operandWords_optional_enum (value : Option U32) :
    operandWords pf (optional .enum value) = value.toList := by
  cases value <;> rfl

theorem operandWords_arms (arms : List (Literal × Id)) :
    operandWords pf (arms.flatMap fun arm => [.literal arm.1, .id arm.2]) =
      arms.flatMap fun arm => arm.1.words ++ [arm.2.value] := by
  simp only [operandWords, List.flatMap_assoc]
  rfl

theorem operandWords_length (operands : List Operand) :
    (operandWords pf operands).length = operandsWidth operands := by
  simp only [operandWords, operandsWidth, List.length_flatMap]
  exact congrArg List.sum (List.map_congr_left fun o _ => o.words_length pf)

def Stream.putAll (vs : List U32) (s : Stream) : Stream :=
  vs.foldl (fun s v => s.putU32 v) s

theorem Stream.ext {s t : Stream} (cursor : s.toCursor = t.toCursor)
    (opIndex : s.opIndex = t.opIndex) : s = t := by
  cases s; cases t
  simp_all

theorem Stream.putAll_append (us vs : List U32) (s : Stream) :
    s.putAll (us ++ vs) = (s.putAll us).putAll vs := List.foldl_append

@[simp] theorem Stream.putAll_nil (s : Stream) : s.putAll [] = s := rfl

@[simp] theorem Stream.putAll_cons (v : U32) (vs : List U32) (s : Stream) :
    s.putAll (v :: vs) = (s.putU32 v).putAll vs := rfl

@[simp] theorem Stream.toCursor_putAll (vs : List U32) (s : Stream) :
    (s.putAll vs).toCursor = s.toCursor.putAll vs := by
  induction vs generalizing s with
  | nil => rfl
  | cons v vs ih => exact ih (s.putU32 v)

@[simp] theorem Stream.opIndex_putAll (vs : List U32) (s : Stream) :
    (s.putAll vs).opIndex = s.opIndex := by
  induction vs generalizing s with
  | nil => rfl
  | cons v vs ih => exact ih (s.putU32 v)

theorem Stream.putString_eq (signed : Bool) (string : List U8) (s : Stream) :
    s.putString signed string = s.putAll (stringWords signed string) := by
  apply Stream.ext
  · rw [Stream.toCursor_putAll]
    exact insertStringView_eq signed string s.toCursor
  · rw [Stream.opIndex_putAll]
    rfl

theorem Stream.insert_eq (o : Operand) (s : Stream) :
    s.insert pf o = s.putAll (o.words pf) := by
  cases o with
  | literal l => cases l <;> rfl
  | string string => exact s.putString_eq pf.charSigned string
  | _ => rfl

theorem Stream.foldl_insert_eq (operands : List Operand) (s : Stream) :
    operands.foldl (Stream.insert pf) s = s.putAll (operandWords pf operands) := by
  induction operands generalizing s with
  | nil => rfl
  | cons o operands ih =>
    rw [List.foldl_cons, ih, s.insert_eq pf o, ← Stream.putAll_append]
    rfl

/-- A zero result type stands for none, as in the source. -/
structure Instruction where
  op : Op
  resultType : U32
  result : Option U32
  operands : List U32
  deriving DecidableEq

def typeWords (resultType : U32) : List U32 := if resultType ≠ 0 then [resultType] else []

theorem typeWords_none : typeWords 0 = [] := rfl

theorem typeWords_some {resultType : U32} (given : resultType ≠ 0) :
    typeWords resultType = [resultType] := if_pos given

theorem typeWords_length_le (resultType : U32) : (typeWords resultType).length ≤ 1 := by
  unfold typeWords
  split
  · exact Nat.le_refl 1
  · exact Nat.zero_le 1

def Instruction.tail (i : Instruction) : List U32 :=
  typeWords i.resultType ++ i.result.toList ++ i.operands

def Instruction.words (i : Instruction) : List U32 :=
  makeWord0 (pf.op i.op) (i.tail.length + 1) :: i.tail

def Instruction.width (i : Instruction) : Nat := i.tail.length + 1

theorem Instruction.words_length (i : Instruction) : (i.words pf).length = i.width := rfl

/-- The words before `EndOp` sets the word count. -/
def Instruction.openWords (i : Instruction) : List U32 := pf.op i.op :: i.tail

theorem close_words (before : List U32) (i : Instruction) :
    (before ++ i.openWords pf).modify before.length
      (· ||| BitVec.ofNat 32 i.width <<< 16) = before ++ i.words pf := by
  rw [List.modify_eq_take_drop, List.take_left, List.drop_left]
  rfl

def OpId.width (op : OpId) : Nat := 2 + (typeWords op.resultType.value).length

def Head.width : Head → Nat
  | .op _ => 1
  | .opId o => o.width

def Head.opcode : Head → Op
  | .op o => o
  | .opId o => o.opcode

def Emission.width (e : Emission) : Nat := e.head.width + operandsWidth e.operands

def Emission.instruction (e : Emission) (bound : U32) : Instruction :=
  match e.head with
  | .op op => ⟨op, 0, none, operandWords pf e.operands⟩
  | .opId op => ⟨op.opcode, op.resultType.value, some (bound + 1), operandWords pf e.operands⟩

def Emission.nextBound (e : Emission) (bound : U32) : U32 :=
  match e.head with
  | .op _ => bound
  | .opId _ => bound + 1

theorem Emission.instruction_op (e : Emission) (bound : U32) :
    (e.instruction pf bound).op = e.head.opcode := by
  cases h : e.head <;> simp only [Emission.instruction, h, Head.opcode]

theorem Emission.instruction_width (e : Emission) (bound : U32) :
    (e.instruction pf bound).width = e.width := by
  cases h : e.head with
  | op op =>
    simp [Emission.instruction, Emission.width, Instruction.width, Instruction.tail, h,
      Head.width, typeWords, operandWords_length]
    omega
  | opId op =>
    simp [Emission.instruction, Emission.width, Instruction.width, Instruction.tail, h,
      Head.width, OpId.width, operandWords_length]
    omega

theorem Stream.putOpId_eq (op : OpId) (s : Stream) (bound : U32) :
    s.putOpId pf op bound =
      ((s.putOp pf op.opcode).putAll (typeWords op.resultType.value ++ [bound + 1]),
        bound + 1) := by
  simp only [Stream.putOpId, typeWords]
  split <;> rfl

theorem Stream.putOp_putAll (op : Op) (vs : List U32) (s : Stream) :
    ((s.putOp pf op).putAll vs).toCursor = s.toCursor.putAll (pf.op op :: vs) ∧
      ((s.putOp pf op).putAll vs).opIndex = s.insertIndex := by
  rw [Stream.toCursor_putAll, Stream.opIndex_putAll]
  exact ⟨rfl, rfl⟩

theorem Stream.putHead_operands (e : Emission) (s : Stream) (bound : U32) :
    (e.operands.foldl (Stream.insert pf) (s.putHead pf e.head bound).1).toCursor =
        s.toCursor.putAll ((e.instruction pf bound).openWords pf) ∧
      (e.operands.foldl (Stream.insert pf) (s.putHead pf e.head bound).1).opIndex =
        s.insertIndex ∧
      (s.putHead pf e.head bound).2 = e.nextBound bound := by
  rw [Stream.foldl_insert_eq]
  cases h : e.head with
  | op op =>
    obtain ⟨cursor, start⟩ := s.putOp_putAll pf op (operandWords pf e.operands)
    simp only [Stream.putHead]
    refine ⟨?_, ?_, ?_⟩
    · simpa [Emission.instruction, h, Instruction.openWords, Instruction.tail, typeWords]
        using cursor
    · exact start
    · simp [Emission.nextBound, h]
  | opId op =>
    obtain ⟨cursor, start⟩ := s.putOp_putAll pf op.opcode
      (typeWords op.resultType.value ++ [bound + 1] ++ operandWords pf e.operands)
    simp only [Stream.putHead, Stream.putOpId_eq, ← Stream.putAll_append]
    refine ⟨?_, ?_, ?_⟩
    · simpa [Emission.instruction, h, Instruction.openWords, Instruction.tail] using cursor
    · exact start
    · simp [Emission.nextBound, h]

theorem Stream.emit_eq (e : Emission) (s : Stream) (bound : U32) :
    (s.emit pf e bound).1 = ⟨e.nextBound bound⟩ ∧
      (s.emit pf e bound).2.1.toCursor =
        ((s.toCursor.reserve 0 e.reserved).putAll
          ((e.instruction pf bound).openWords pf)).modify s.insertIndex
            (· ||| BitVec.ofNat 32 e.width <<< 16) ∧
      (s.emit pf e bound).2.2 = e.nextBound bound := by
  obtain ⟨cursor, start, counter⟩ :=
    Stream.putHead_operands pf e (s.reserve e.reserved) bound
  have start' : (s.reserve e.reserved).insertIndex = s.insertIndex :=
    Cursor.insertIndex_reserve 0 e.reserved s.toCursor
  have long : ((e.instruction pf bound).openWords pf).length = e.width :=
    e.instruction_width pf bound
  refine ⟨?_, ?_, ?_⟩
  · simp only [Stream.emit, Stream.endOp, counter]
  · simp only [Stream.emit, Stream.endOp, cursor, start, start', Cursor.insertIndex_putAll,
      long]
    rw [Nat.add_sub_cancel_left]
    rfl
  · exact counter

theorem Stream.emit_id (e : Emission) (s : Stream) (bound : U32) :
    (s.emit pf e bound).1 = ⟨e.nextBound bound⟩ := (s.emit_eq pf e bound).1

theorem Stream.emit_bound (e : Emission) (s : Stream) (bound : U32) :
    (s.emit pf e bound).2.2 = e.nextBound bound := (s.emit_eq pf e bound).2.2

theorem Stream.written_emit (e : Emission) (s : Stream) (bound : U32) :
    (s.emit pf e bound).2.1.written = s.written ++ (e.instruction pf bound).words pf := by
  rw [(s.emit_eq pf e bound).2.1, Cursor.written_modify, Cursor.written_putAll,
    Cursor.written_reserve, ← Cursor.written_length, ← e.instruction_width pf bound]
  exact close_words pf s.written (e.instruction pf bound)

theorem Stream.insertIndex_emit (e : Emission) (s : Stream) (bound : U32) :
    (s.emit pf e bound).2.1.insertIndex = s.insertIndex + e.width := by
  rw [(s.emit_eq pf e bound).2.1, Cursor.insertIndex_modify, Cursor.insertIndex_putAll]
  simp only [Cursor.insertIndex_reserve]
  rw [← e.instruction_width pf bound]
  rfl

theorem Stream.slack_emit (e : Emission) (s : Stream) (bound : U32) :
    (s.emit pf e bound).2.1.slack = max s.slack e.reserved - e.width := by
  rw [(s.emit_eq pf e bound).2.1, Cursor.slack_modify, Cursor.slack_putAll,
    Cursor.slack_reserve, ← e.instruction_width pf bound]
  rfl

theorem Stream.overruns_emit (e : Emission) (s : Stream) (bound : U32) :
    (s.emit pf e bound).2.1.overruns =
      s.overruns + (e.width - max s.slack e.reserved) := by
  rw [(s.emit_eq pf e bound).2.1, Cursor.overruns_modify, Cursor.overruns_putAll,
    Cursor.slack_reserve, Cursor.overruns_reserve, ← e.instruction_width pf bound]
  rfl

end Sirit
