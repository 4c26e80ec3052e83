import Sirit.Emission

/- What one declaration does. The lookup key is the instruction with its id blanked and its
   word count not yet set; it determines the opcode, the result type and the operands. -/
namespace Sirit
open VectorCursor
variable (pf : Platform)

/-- Two declarations are the same when opcode, result type and operand words are. -/
structure DeclKey where
  op : Op
  resultType : U32
  operands : List U32
  deriving DecidableEq

def Declaration.key (e : Declaration) : DeclKey :=
  ⟨e.opId.opcode, e.opId.resultType.value, operandWords pf e.operands⟩

def DeclKey.instruction (k : DeclKey) (id : U32) : Instruction :=
  ⟨k.op, k.resultType, some id, k.operands⟩

def DeclKey.words (k : DeclKey) : List U32 :=
  pf.op k.op :: (typeWords k.resultType ++ [0] ++ k.operands)

/-- A declaration with a result type has it where one without has the blanked id. -/
theorem DeclKey.words_injective : Function.Injective (DeclKey.words pf) := by
  intro k l same
  obtain ⟨op, resultType, operands⟩ := k
  obtain ⟨op', resultType', operands'⟩ := l
  simp only [DeclKey.words, List.cons.injEq] at same
  obtain ⟨sameOp, rest⟩ := same
  have ops := pf.op_injective sameOp
  subst ops
  by_cases none : resultType = 0 <;> by_cases none' : resultType' = 0
  · subst none none'
    simp_all
  · subst none
    rw [typeWords_none, typeWords_some none'] at rest
    exact absurd (List.cons.inj rest).1.symm none'
  · subst none'
    rw [typeWords_none, typeWords_some none] at rest
    exact absurd (List.cons.inj rest).1 none
  · rw [typeWords_some none, typeWords_some none'] at rest
    simp_all

def Declaration.emission (e : Declaration) : Emission := ⟨e.reserved, .opId e.opId, e.operands⟩

def Declaration.width (e : Declaration) : Nat := e.emission.width

/-- The slot `EndOp` reads and blanks is the one the id was written to. -/
theorem DeclKey.blank_openWords (k : DeclKey) (id : U32) :
    ((k.instruction id).openWords pf).getD (if k.resultType ≠ 0 then 2 else 1) 0 = id ∧
      ((k.instruction id).openWords pf).set (if k.resultType ≠ 0 then 2 else 1) 0 =
        k.words pf := by
  by_cases none : k.resultType = 0
  · simp only [DeclKey.instruction, Instruction.openWords, Instruction.tail, DeclKey.words,
      none, typeWords_none, ne_eq, not_true_eq_false, if_false]
    exact ⟨rfl, rfl⟩
  · simp only [DeclKey.instruction, Instruction.openWords, Instruction.tail, DeclKey.words,
      typeWords_some none, if_pos (show k.resultType ≠ 0 from none)]
    exact ⟨rfl, rfl⟩

def Declarations.opened (e : Declaration) (d : Declarations) (bound : U32) : Declarations :=
  let r := { d with stream := d.stream.reserve e.reserved }.putOpId pf e.opId bound
  { r.1 with stream := e.operands.foldl (Stream.insert pf) r.1.stream }

theorem Declarations.declare_opened (e : Declaration) (d : Declarations) (bound : U32) :
    d.declare pf e bound = (d.opened pf e bound).endOp (bound + 1) := rfl

theorem Declarations.opened_stream (e : Declaration) (d : Declarations) (bound : U32) :
    (d.opened pf e bound).stream.toCursor = (d.stream.toCursor.reserve 0 e.reserved).putAll
        (((e.key pf).instruction (bound + 1)).openWords pf) ∧
      (d.opened pf e bound).stream.opIndex = d.stream.insertIndex := by
  obtain ⟨cursor, start, _⟩ :=
    Stream.putHead_operands pf e.emission (d.stream.reserve e.reserved) bound
  exact ⟨cursor, start.trans (Cursor.insertIndex_reserve 0 e.reserved d.stream.toCursor)⟩

/-- The lookup key of the source is the key of the declaration. -/
theorem Declarations.opened_slice (e : Declaration) (d : Declarations) (bound : U32) :
    (((d.opened pf e bound).stream.words.drop (d.opened pf e bound).stream.opIndex).take
      ((d.opened pf e bound).stream.insertIndex - (d.opened pf e bound).stream.opIndex)) =
        ((e.key pf).instruction (bound + 1)).openWords pf := by
  obtain ⟨cursor, start⟩ := d.opened_stream pf e bound
  have slice := Cursor.slice_putAll (((e.key pf).instruction (bound + 1)).openWords pf)
    (d.stream.toCursor.reserve 0 e.reserved)
  rw [start, cursor]
  simpa using slice

theorem Declarations.opened_idIndex (e : Declaration) (d : Declarations) (bound : U32) :
    (d.opened pf e bound).idIndex = if (e.key pf).resultType ≠ 0 then 2 else 1 := rfl

theorem Declarations.opened_existing (e : Declaration) (d : Declarations) (bound : U32) :
    (d.opened pf e bound).existingDeclarations = d.existingDeclarations := rfl

theorem Declarations.declare_eq (e : Declaration) (d : Declarations) (bound : U32) :
    d.declare pf e bound =
      match d.existingDeclarations.lookup ((e.key pf).words pf) with
      | none =>
          (⟨bound + 1⟩, { d.opened pf e bound with
            stream := ((d.opened pf e bound).stream.endOp (bound + 1)).2
            existingDeclarations :=
              d.existingDeclarations ++ [((e.key pf).words pf, bound + 1)] }, bound + 1)
      | some entry =>
          (⟨entry⟩, { d.opened pf e bound with
            stream := { (d.opened pf e bound).stream with
              toCursor := (d.opened pf e bound).stream.toCursor.rewind
                (d.opened pf e bound).stream.opIndex (d.opened pf e bound).stream.opened
              opened := Nat.le_refl _ } }, bound) := by
  obtain ⟨id, blank⟩ := (e.key pf).blank_openWords pf (bound + 1)
  rw [Declarations.declare_opened]
  simp only [Declarations.endOp, Declarations.opened_slice, Declarations.opened_idIndex, id,
    blank, Declarations.opened_existing]
  cases d.existingDeclarations.lookup ((e.key pf).words pf) with
  | none => rfl
  | some entry => simp only [BitVec.add_sub_cancel]

section Known
variable {pf} {e : Declaration} {d : Declarations} (bound : U32) {entry : U32}
  (found : d.existingDeclarations.lookup ((e.key pf).words pf) = some entry)
include found

theorem Declarations.declare_known_id :
    (d.declare pf e bound).1 = ⟨entry⟩ ∧ (d.declare pf e bound).2.2 = bound := by
  rw [Declarations.declare_eq, found]
  exact ⟨rfl, rfl⟩

theorem Declarations.declare_known_existing :
    (d.declare pf e bound).2.1.existingDeclarations = d.existingDeclarations := by
  rw [Declarations.declare_eq, found]
  rfl

theorem Declarations.declare_known_written :
    (d.declare pf e bound).2.1.stream.written = d.stream.written := by
  obtain ⟨cursor, start⟩ := d.opened_stream pf e bound
  rw [Declarations.declare_eq, found]
  refine (Cursor.written_rewind (d.opened pf e bound).stream.opened).trans ?_
  rw [cursor, Cursor.written_putAll, Cursor.written_reserve, start,
    ← d.stream.toCursor.written_length, List.take_left]

end Known

section New
variable {pf} {e : Declaration} {d : Declarations} (bound : U32)
  (absent : d.existingDeclarations.lookup ((e.key pf).words pf) = none)
include absent

theorem Declarations.declare_new_id :
    (d.declare pf e bound).1 = ⟨bound + 1⟩ ∧ (d.declare pf e bound).2.2 = bound + 1 := by
  rw [Declarations.declare_eq, absent]
  exact ⟨rfl, rfl⟩

theorem Declarations.declare_new_existing :
    (d.declare pf e bound).2.1.existingDeclarations =
      d.existingDeclarations ++ [((e.key pf).words pf, bound + 1)] := by
  rw [Declarations.declare_eq, absent]

theorem Declarations.declare_new_written :
    (d.declare pf e bound).2.1.stream.written =
      d.stream.written ++ ((e.key pf).instruction (bound + 1)).words pf := by
  have plain := Stream.written_emit pf e.emission d.stream bound
  rw [Declarations.declare_eq, absent]
  exact plain

end New

theorem Declarations.declare_overruns (e : Declaration) (d : Declarations) (bound : U32) :
    (d.declare pf e bound).2.1.stream.overruns =
      d.stream.overruns + (e.width - max d.stream.slack e.reserved) := by
  have plain := Stream.overruns_emit pf e.emission d.stream bound
  rw [Declarations.declare_eq]
  split
  · exact plain
  · exact plain

end Sirit
