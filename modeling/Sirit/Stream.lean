import Sirit.Headers
import Sirit.VectorCursor

/- stream.h: the word stream every method writes to, and the deduplicating stream of
   declarations. The id counter all streams share by pointer is passed alongside. -/
namespace Sirit
open VectorCursor

def wordsInString (string : List U8) : Nat := string.length / 4 + 1

def charToU32 (signed : Bool) (c : U8) : U32 :=
  if signed then c.signExtend 32 else c.setWidth 32

def readChar (signed : Bool) (string : List U8) (offset : Nat) : U32 :=
  if h : offset < string.length then charToU32 signed string[offset] else 0

def stringWord (signed : Bool) (string : List U8) (i : Nat) : U32 :=
  readChar signed string i ||| readChar signed string (i + 1) <<< 8 |||
    readChar signed string (i + 2) <<< 16 ||| readChar signed string (i + 3) <<< 24

/-- The loop runs over the offsets 0, 4, 8, ... below the size. -/
def insertStringView (signed : Bool) (string : List U8) (c : Cursor U32) : Cursor U32 :=
  let c := (List.range ((string.length + 3) / 4)).foldl
    (fun c k => c.put (stringWord signed string (4 * k))) c
  if string.length % 4 = 0 then c.put 0 else c

theorem insertIndex_le_insertStringView (signed : Bool) (string : List U8) (c : Cursor U32) :
    c.insertIndex ≤ (insertStringView signed string c).insertIndex := by
  have loop : ∀ (ks : List Nat) (c : Cursor U32), c.insertIndex ≤
      (ks.foldl (fun c k => c.put (stringWord signed string (4 * k))) c).insertIndex := by
    intro ks
    induction ks with
    | nil => intro c; exact Nat.le_refl _
    | cons k ks ih => intro c; exact Nat.le_trans (Nat.le_succ _) (ih (c.put _))
  simp only [insertStringView]
  split
  · exact Nat.le_trans (loop _ c) (Nat.le_succ _)
  · exact loop _ c

structure Stream extends Cursor U32 where
  opIndex : Nat
  opened : opIndex ≤ insertIndex

theorem Stream.opened_new : 0 ≤ (Cursor.empty : Cursor U32).insertIndex := Nat.le_refl 0

def Stream.new : Stream := { Cursor.empty with opIndex := 0, opened := Stream.opened_new }

def Stream.reserve (numWords : Nat) (s : Stream) : Stream :=
  { s.toCursor.reserve 0 numWords with
    opIndex := s.opIndex
    opened := by rw [Cursor.insertIndex_reserve]; exact s.opened }

def Stream.localAddress (s : Stream) : U32 := BitVec.ofNat 32 s.words.length

def Stream.value (index : U32) (s : Stream) : U32 := s.words.getD index.toNat 0

def Stream.setValue (index value : U32) (s : Stream) : Stream :=
  { s with
    words := s.words.set index.toNat value
    overruns := if index.toNat < s.words.length then s.overruns else s.overruns + 1
    bounded := by simpa using s.bounded }

-- The overloads of operator<<, each in terms of the one it forwards to.
def Stream.putU32 (value : U32) (s : Stream) : Stream :=
  { s.toCursor.put value with
    opIndex := s.opIndex
    opened := Nat.le_succ_of_le s.opened }

def Stream.putS32 (value : BitVec 32) (s : Stream) : Stream := s.putU32 value

def Stream.putU64 (value : U64) (s : Stream) : Stream :=
  (s.putU32 (value.setWidth 32)).putU32 ((value >>> 32).setWidth 32)

def Stream.putS64 (value : BitVec 64) (s : Stream) : Stream := s.putU64 value

def Stream.putFloat (bits : U32) (s : Stream) : Stream := s.putU32 bits

def Stream.putDouble (bits : U64) (s : Stream) : Stream := s.putU64 bits

def Stream.putBool (value : Bool) (s : Stream) : Stream := s.putU32 (if value then 1 else 0)

def Stream.putId (value : Id) (s : Stream) : Stream := s.putU32 value.value

def Stream.putLiteral (literal : Literal) (s : Stream) : Stream :=
  match literal with
  | .u32 value => s.putU32 value
  | .u64 value => s.putU64 value
  | .s32 value => s.putS32 value
  | .s64 value => s.putS64 value
  | .float bits => s.putFloat bits
  | .double bits => s.putDouble bits

def Stream.putString (signed : Bool) (string : List U8) (s : Stream) : Stream :=
  { insertStringView signed string s.toCursor with
    opIndex := s.opIndex
    opened := Nat.le_trans s.opened (insertIndex_le_insertStringView _ _ _) }

/-- An opcode with a result id. Without a result type the type is zero. -/
inductive OpId where
  | bare (opcode : Op)
  | typed (opcode : Op) (resultType : Id)

def OpId.opcode : OpId → Op
  | .bare opcode => opcode
  | .typed opcode _ => opcode

def OpId.resultType : OpId → Id
  | .bare _ => ⟨0⟩
  | .typed _ resultType => resultType

def Stream.putOp (pf : Platform) (op : Op) (s : Stream) : Stream :=
  { s.toCursor.put (pf.op op) with
    opIndex := s.insertIndex
    opened := Nat.le_succ _ }

/-- A zero result type is not written. The counter is raised before it is written. -/
def Stream.putOpId (pf : Platform) (op : OpId) (s : Stream) (bound : U32) : Stream × U32 :=
  let s := s.putOp pf op.opcode
  let s := if op.resultType.value ≠ 0 then s.putU32 op.resultType.value else s
  (s.putU32 (bound + 1), bound + 1)

def Stream.endOp (bound : U32) (s : Stream) : Id × Stream :=
  let numWords := s.insertIndex - s.opIndex
  (⟨bound⟩, { s with
    toCursor := s.toCursor.modify s.opIndex (· ||| BitVec.ofNat 32 numWords <<< 16) })

inductive Operand where
  | u32 (value : U32)
  | s32 (value : BitVec 32)
  | bool (value : Bool)
  | id (value : Id)
  | literal (literal : Literal)
  | string (string : List U8)
  | enum (value : U32)

def Stream.insert (pf : Platform) (s : Stream) : Operand → Stream
  | .u32 value => s.putU32 value
  | .s32 value => s.putS32 value
  | .bool value => s.putBool value
  | .id value => s.putId value
  | .literal literal => s.putLiteral literal
  | .string string => s.putString pf.charSigned string
  | .enum value => s.putU32 value

def optional {α : Type} (operand : α → Operand) (value : Option α) : List Operand :=
  value.toList.map operand

def span {α : Type} (operand : α → Operand) (values : List α) : List Operand :=
  values.map operand

inductive Head where
  | op (op : Op)
  | opId (op : OpId)

def Head.bare (op : Op) : Head := .opId (.bare op)
def Head.typed (op : Op) (resultType : Id) : Head := .opId (.typed op resultType)

def Stream.putHead (pf : Platform) (head : Head) (s : Stream) (bound : U32) : Stream × U32 :=
  match head with
  | .op op => (s.putOp pf op, bound)
  | .opId op => s.putOpId pf op bound

/-- `Reserve(reserved); stream << head << operands... << EndOp{}`. -/
structure Emission where
  reserved : Nat
  head : Head
  operands : List Operand

def OpId.Asserts : OpId → Prop
  | .bare _ => True
  | .typed _ resultType => resultType.value ≠ 0

def Operand.Asserts : Operand → Prop
  | .id value => value.value ≠ 0
  | _ => True

def Head.Asserts : Head → Prop
  | .op _ => True
  | .opId opcode => opcode.Asserts

def Emission.Asserts (e : Emission) : Prop :=
  e.head.Asserts ∧ ∀ o ∈ e.operands, o.Asserts

instance decidableOpIdAsserts (o : OpId) : Decidable o.Asserts := by
  cases o <;> dsimp only [OpId.Asserts] <;> infer_instance

instance decidableOperandAsserts (o : Operand) : Decidable o.Asserts := by
  cases o <;> dsimp only [Operand.Asserts] <;> infer_instance

instance decidableHeadAsserts (h : Head) : Decidable h.Asserts := by
  cases h <;> dsimp only [Head.Asserts] <;> infer_instance

instance decidableEmissionAsserts (e : Emission) : Decidable e.Asserts :=
  inferInstanceAs (Decidable (_ ∧ _))

def Stream.emit (pf : Platform) (e : Emission) (s : Stream) (bound : U32) :
    Id × Stream × U32 :=
  let r := (s.reserve e.reserved).putHead pf e.head bound
  let t := (e.operands.foldl (Stream.insert pf) r.1).endOp r.2
  (t.1, t.2, r.2)

/-- `existing_declarations` maps the words of a declaration, its id blanked and its word
    count not yet set, to the id. -/
structure Declarations where
  stream : Stream
  existingDeclarations : List (List U32 × U32)
  idIndex : Nat

def Declarations.new : Declarations := ⟨Stream.new, [], 0⟩

def Declarations.putOpId (pf : Platform) (op : OpId) (d : Declarations) (bound : U32) :
    Declarations × U32 :=
  let r := d.stream.putOpId pf op bound
  ({ d with idIndex := if op.resultType.value ≠ 0 then 2 else 1, stream := r.1 }, r.2)

def Declarations.endOp (bound : U32) (d : Declarations) : Id × Declarations × U32 :=
  let s := d.stream
  let declarations := (s.words.drop s.opIndex).take (s.insertIndex - s.opIndex)
  let id := declarations.getD d.idIndex 0
  let declarations := declarations.set d.idIndex 0
  match d.existingDeclarations.lookup declarations with
  | none =>
      let r := s.endOp bound
      (r.1, { d with
        stream := r.2
        existingDeclarations := d.existingDeclarations ++ [(declarations, id)] }, bound)
  | some entry =>
      (⟨entry⟩, { d with
        stream := { s with
          toCursor := s.toCursor.rewind s.opIndex s.opened
          opened := Nat.le_refl _ } }, bound - 1)

/-- A stream expression on `Declarations`, which takes no bare opcode. -/
structure Declaration where
  reserved : Nat
  opId : OpId
  operands : List Operand

def Declaration.Asserts (e : Declaration) : Prop :=
  e.opId.Asserts ∧ ∀ o ∈ e.operands, o.Asserts

instance decidableDeclarationAsserts (e : Declaration) : Decidable e.Asserts :=
  inferInstanceAs (Decidable (_ ∧ _))

def Declarations.declare (pf : Platform) (e : Declaration) (d : Declarations) (bound : U32) :
    Id × Declarations × U32 :=
  let d := { d with stream := d.stream.reserve e.reserved }
  let r := d.putOpId pf e.opId bound
  let d := { r.1 with stream := e.operands.foldl (Stream.insert pf) r.1.stream }
  d.endOp r.2

end Sirit
