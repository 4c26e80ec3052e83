import Sirit.DefinedFirst
import Sirit.Disassembly
import Sirit.StringLiterals
import Sirit.SwitchTable

/- Reading the declarations back as calls. The words do not tell apart the methods for
   signed and unsigned integers from `TypeInt`, nor literals of one width; up to that, the
   section is the list of the distinct calls, each with the id they all returned. -/
namespace Sirit
open Framing Interning LittleEndian
variable (pf : Platform)

def Literal.normal : Literal → Literal
  | .u32 value | .s32 value | .float value => .u32 value
  | .u64 value | .s64 value | .double value => .u64 value

/-- The call that stands for all that are written alike. -/
def DeclarationCall.normal : DeclarationCall → DeclarationCall
  | .type (.typeSInt width) => .type (.typeInt width true)
  | .type (.typeUInt width) => .type (.typeInt width false)
  | .constant (.constant resultType literal) => .constant (.constant resultType literal.normal)
  | d => d

def DeclarationCall.Readable : DeclarationCall → Prop
  | .type (.typeOpaque name) => 0 ∉ name ∧ CleanString pf.charSigned name
  | _ => True

def readType (op : Op) (operands : List U32) : Option TypeCall :=
  match op, operands with
  | .opTypeVoid, [] => some .typeVoid
  | .opTypeBool, [] => some .typeBool
  | .opTypeInt, [width, isSigned] => some (.typeInt width (decide (isSigned ≠ 0)))
  | .opTypeFloat, [width] => some (.typeFloat width)
  | .opTypeVector, [componentType, componentCount] =>
      some (.typeVector ⟨componentType⟩ componentCount)
  | .opTypeMatrix, [columnType, columnCount] => some (.typeMatrix ⟨columnType⟩ columnCount)
  | .opTypeImage, sampledType :: dim :: depth :: arrayed :: ms :: sampled :: imageFormat ::
      accessQualifier =>
      some (.typeImage ⟨sampledType⟩ dim depth (decide (arrayed ≠ 0)) (decide (ms ≠ 0)) sampled
        imageFormat accessQualifier.head?)
  | .opTypeSampler, [] => some .typeSampler
  | .opTypeSampledImage, [imageType] => some (.typeSampledImage ⟨imageType⟩)
  | .opTypeArray, [elementType, length] => some (.typeArray ⟨elementType⟩ ⟨length⟩)
  | .opTypeRuntimeArray, [elementType] => some (.typeRuntimeArray ⟨elementType⟩)
  | .opTypeStruct, members => some (.typeStruct (members.map Id.mk))
  | .opTypeOpaque, name => (readString name).map fun r => .typeOpaque r.1
  | .opTypePointer, [storageClass, type] => some (.typePointer storageClass ⟨type⟩)
  | .opTypeFunction, returnType :: arguments =>
      some (.typeFunction ⟨returnType⟩ (arguments.map Id.mk))
  | .opTypeEvent, [] => some .typeEvent
  | .opTypeDeviceEvent, [] => some .typeDeviceEvent
  | .opTypeReserveId, [] => some .typeReserveId
  | .opTypeQueue, [] => some .typeQueue
  | .opTypePipe, [accessQualifier] => some (.typePipe accessQualifier)
  | _, _ => none

def readConstant (op : Op) (resultType : Id) (operands : List U32) : Option ConstantCall :=
  match op, operands with
  | .opConstantTrue, [] => some (.constantTrue resultType)
  | .opConstantFalse, [] => some (.constantFalse resultType)
  | .opConstant, [word] => some (.constant resultType (.u32 word))
  | .opConstant, [low, high] => some (.constant resultType (.u64 (high ++ low)))
  | .opConstantComposite, constituents =>
      some (.constantComposite resultType (constituents.map Id.mk))
  | .opConstantSampler, [addressingMode, normalized, filterMode] =>
      some (.constantSampler resultType addressingMode (decide (normalized ≠ 0)) filterMode)
  | .opConstantNull, [] => some (.constantNull resultType)
  | _, _ => none

def readDeclaration (k : DeclKey) : Option DeclarationCall :=
  if k.resultType = 0 then (readType k.op k.operands).map .type
  else (readConstant k.op ⟨k.resultType⟩ k.operands).map .constant

theorem map_mk_value (ids : List Id) : (ids.map Id.value).map Id.mk = ids := by
  rw [List.map_map]
  exact List.map_id ids

theorem readType_operands {c : TypeCall} (readable : (DeclarationCall.type c).Readable pf) :
    (readType c.declaration.opId.opcode (operandWords pf c.declaration.operands)).map
      DeclarationCall.type = some (DeclarationCall.type c).normal := by
  cases c with
  | typeInt width isSigned => cases isSigned <;> rfl
  | typeSInt width | typeUInt width => rfl
  | typeImage sampledType dim depth arrayed ms sampled imageFormat accessQualifier =>
    cases accessQualifier <;> cases arrayed <;> cases ms <;> rfl
  | typeStruct members =>
    change (readType .opTypeStruct (operandWords pf (span .id members))).map _ = _
    rw [operandWords_span_id]
    change some (DeclarationCall.type (.typeStruct ((members.map Id.value).map Id.mk))) = _
    rw [map_mk_value]
    rfl
  | typeOpaque name =>
    obtain ⟨nulFree, clean⟩ := readable
    have read := readString_packString clean nulFree []
    rw [List.append_nil, ← stringWords_eq_packString] at read
    change ((readString (stringWords pf.charSigned name ++ [])).map fun r =>
      TypeCall.typeOpaque r.1).map DeclarationCall.type = _
    rw [List.append_nil, read]
    rfl
  | typeFunction returnType arguments =>
    change (readType .opTypeFunction (returnType.value ::
      operandWords pf (span .id arguments))).map _ = _
    rw [operandWords_span_id]
    change some (DeclarationCall.type (.typeFunction returnType
      ((arguments.map Id.value).map Id.mk))) = _
    rw [map_mk_value]
    rfl
  | _ => rfl

theorem readConstant_operands {c : ConstantCall} :
    (readConstant c.declaration.opId.opcode c.declaration.opId.resultType
      (operandWords pf c.declaration.operands)).map DeclarationCall.constant =
        some (DeclarationCall.constant c).normal := by
  cases c with
  | constant resultType literal =>
    cases literal with
    | u64 value | s64 value | double value =>
      change some (DeclarationCall.constant (.constant resultType
        (.u64 ((value >>> 32).setWidth 32 ++ value.setWidth 32)))) = _
      rw [halves_append]
      rfl
    | u32 _ | s32 _ | float _ => rfl
  | constantComposite resultType constituents =>
    change (readConstant .opConstantComposite resultType
      (operandWords pf (span .id constituents))).map _ = _
    rw [operandWords_span_id]
    change some (DeclarationCall.constant (.constantComposite resultType
      ((constituents.map Id.value).map Id.mk))) = _
    rw [map_mk_value]
    rfl
  | constantSampler resultType addressingMode normalized filterMode =>
    cases normalized <;> rfl
  | _ => rfl

theorem readDeclaration_key {d : DeclarationCall} (asserts : d.declaration.Asserts)
    (readable : d.Readable pf) : readDeclaration (d.declaration.key pf) = some d.normal := by
  cases d with
  | type c =>
    have typeless : (DeclarationCall.type c).declaration.opId.resultType.value = 0 := by
      cases c <;> rfl
    rw [readDeclaration, Declaration.key, if_pos typeless]
    exact readType_operands pf readable
  | constant c =>
    have typed : (DeclarationCall.constant c).declaration.opId.resultType.value ≠ 0 := by
      cases c <;> exact asserts.1
    rw [readDeclaration, Declaration.key, if_neg typed]
    exact readConstant_operands pf

theorem DeclarationCall.key_normal (d : DeclarationCall) :
    d.normal.declaration.key pf = d.declaration.key pf := by
  cases d with
  | type c => cases c <;> rfl
  | constant c =>
    cases c with
    | constant resultType literal => cases literal <;> rfl
    | _ => rfl

def readDeclared (i : Instruction) : Option (DeclarationCall × Id) :=
  match i.result with
  | some id => (readDeclaration ⟨i.op, i.resultType, i.operands⟩).map fun d => (d, ⟨id⟩)
  | none => none

section ReadBack
variable {version : U32} {calls : List Call} (asserts : ∀ c ∈ calls, c.Asserts)
  (readable : ∀ d : DeclarationCall, d.call ∈ calls → d.Readable pf)
include asserts

theorem declaration_asserts {d : DeclarationCall} (member : d.call ∈ calls) :
    d.declaration.Asserts := by
  have meets := (asserts d.call member).1
  rw [d.action_call] at meets
  exact meets

theorem declared_formed (short : (listing pf version calls).Short pf) :
    ∀ i ∈ (listing pf version calls).declarationInstructions, i.Formed := by
  intro i member
  have emitted := Listing.mem_emitted_iff.mpr (Or.inr member)
  refine ⟨?_, short i ((listing pf version calls).emitted_subset_all pf emitted)⟩
  obtain ⟨e, listed, rfl⟩ := List.mem_map.mp member
  obtain ⟨before, d, after, cut, key, _⟩ := declaration_made pf listed
  have given : d.call ∈ calls := by simp [cut]
  have written : d.call.action.Writes pf (e.1.instruction e.2) := by
    rw [d.action_call, key]
    exact .declare d.declaration e.2
  have storeless : ¬ d.call.IsAtomicStore := by cases d <;> exact fun none => none
  have grammatical := written.grammatical pf (d.call.grammatical_iff.mpr storeless)
    (asserts d.call given).1
  rwa [Instruction.parsed_of_result (Option.some_ne_none e.2)] at grammatical

include readable

theorem readDeclared_entry {e : DeclKey × U32}
    (member : e ∈ (listing pf version calls).declarations.entries) :
    ∃ d : DeclarationCall, d.call ∈ calls ∧ e.1 = d.declaration.key pf ∧
      readDeclared (e.1.instruction e.2) = some (d.normal, ⟨e.2⟩) := by
  obtain ⟨before, d, after, cut, key, _⟩ := declaration_made pf member
  have given : d.call ∈ calls := by simp [cut]
  have read := readDeclaration_key pf (declaration_asserts asserts given) (readable d given)
  refine ⟨d, given, key, ?_⟩
  rw [key]
  simp only [readDeclared, DeclKey.instruction]
  rw [read, Option.map_some]

end ReadBack

theorem map_eq_map_some {α β : Type} {f : α → Option β} {xs : List α}
    (total : ∀ x ∈ xs, (f x).isSome = true) : xs.map f = (xs.filterMap f).map some := by
  induction xs with
  | nil => rfl
  | cons x xs ih =>
    obtain ⟨y, image⟩ := Option.isSome_iff_exists.mp (total x List.mem_cons_self)
    rw [List.map_cons, List.filterMap_cons_some image, List.map_cons, image,
      ih fun z member => total z (List.mem_cons_of_mem x member)]

/-- In every run of asserting calls whose opaque names can be read back, and in which no
    declaration missed the vector, the declarations read back as the distinct calls that
    were made, each with the id that every call it stands for returned. -/
theorem declarations_read_back (version : U32) (calls : List Call)
    (asserts : ∀ c ∈ calls, c.Asserts)
    (readable : ∀ d : DeclarationCall, d.call ∈ calls → d.Readable pf)
    (short : (listing pf version calls).Short pf)
    (few : (listing pf version calls).ids < 2 ^ 32)
    (inside : ((SizedModule.new pf version).run pf calls).declarations.stream.missed = 0) :
    ∃ (is : List Instruction) (ds : List (DeclarationCall × Id)),
      (instructionCodec pf).readAll
        ((SizedModule.new pf version).run pf calls).declarations.stream.written = some is ∧
      is.map readDeclared = ds.map some ∧
      (ds.map Prod.fst).Nodup ∧ (ds.map Prod.snd).Nodup ∧
      (∀ d, d ∈ ds.map Prod.fst ↔ ∃ e : DeclarationCall, e.call ∈ calls ∧ e.normal = d) ∧
      ∀ before e after, calls = before ++ DeclarationCall.call e :: after →
        ∃ id, (((SizedModule.new pf version).run pf before).exec pf e.call).1 = some id ∧
          (e.normal, id) ∈ ds := by
  obtain ⟨_, refines⟩ := run_refines pf (fun _ => False) version calls fun _ _ _ none => none
  obtain ⟨_, follows⟩ := sized_follows pf version calls
  have words : ((SizedModule.new pf version).run pf calls).declarations.stream.written =
      (listing pf version calls).declarationInstructions.flatMap (Instruction.words pf) :=
    (follows.declarations.stream.same_of_missed inside).written.trans refines.declared
  have source : ∀ e ∈ (listing pf version calls).declarations.entries, ∃ d : DeclarationCall,
      d.call ∈ calls ∧ e.1 = d.declaration.key pf ∧
        readDeclared (e.1.instruction e.2) = some (d.normal, ⟨e.2⟩) :=
    fun e member => readDeclared_entry pf asserts readable member
  have answered : ∀ before e after, calls = before ++ DeclarationCall.call e :: after →
      ∃ id, (((SizedModule.new pf version).run pf before).exec pf e.call).1 = some id ∧
        (e.normal, id) ∈
          (listing pf version calls).declarationInstructions.filterMap readDeclared := by
    intro before e after cut
    obtain ⟨id, answer, entry⟩ := declaration_answered pf version before after e
    rw [← cut] at entry
    rw [← ((sized_follows pf version before).2.exec pf e.call).1] at answer
    have read := readDeclaration_key pf
      (declaration_asserts asserts (d := e) (by simp [cut])) (readable e (by simp [cut]))
    refine ⟨id, answer, List.mem_filterMap.mpr ⟨_, List.mem_map_of_mem entry, ?_⟩⟩
    simp only [readDeclared, DeclKey.instruction]
    rw [read, Option.map_some]
  refine ⟨_, (listing pf version calls).declarationInstructions.filterMap readDeclared,
    (instructionCodec pf).readAll_eq_some_iff.mpr
      ⟨declared_formed pf asserts short, words.symm⟩, ?_, ?_, ?_, ?_, ?_⟩
  · apply map_eq_map_some
    intro i member
    obtain ⟨e, listed, rfl⟩ := List.mem_map.mp member
    obtain ⟨d, _, _, read⟩ := source e listed
    exact read ▸ rfl
  · have keys := List.pairwise_map.mp (listing pf version calls).declarations.distinct
    rw [List.Nodup, List.pairwise_map, List.pairwise_filterMap, Listing.declarationInstructions,
      List.pairwise_map]
    refine keys.imp_of_mem ?_
    intro e e' member member' different p read p' read' same
    obtain ⟨d, _, key, readD⟩ := source e member
    obtain ⟨d', _, key', readD'⟩ := source e' member'
    obtain rfl := Option.some.inj (read.symm.trans readD)
    obtain rfl := Option.some.inj (read'.symm.trans readD')
    have normal : d.normal = d'.normal := same
    apply different
    rw [key, key', ← d.key_normal pf, normal, d'.key_normal pf]
  · have ids := List.pairwise_map.mp
      (Listing.declared_ids_nodup (listing_dense pf version calls) few)
    rw [List.Nodup, List.pairwise_map, List.pairwise_filterMap, Listing.declarationInstructions,
      List.pairwise_map]
    refine ids.imp_of_mem ?_
    intro e e' member member' different p read p' read' same
    obtain ⟨d, _, _, readD⟩ := source e member
    obtain ⟨d', _, _, readD'⟩ := source e' member'
    obtain rfl := Option.some.inj (read.symm.trans readD)
    obtain rfl := Option.some.inj (read'.symm.trans readD')
    exact different (congrArg Id.value same)
  · intro d
    constructor
    · intro member
      obtain ⟨p, listed, rfl⟩ := List.mem_map.mp member
      obtain ⟨i, inside, read⟩ := List.mem_filterMap.mp listed
      obtain ⟨e, entry, rfl⟩ := List.mem_map.mp inside
      obtain ⟨d, given, _, readD⟩ := source e entry
      obtain rfl := Option.some.inj (read.symm.trans readD)
      exact ⟨d, given, rfl⟩
    · rintro ⟨e, given, rfl⟩
      obtain ⟨before, after, cut⟩ := List.append_of_mem given
      obtain ⟨id, _, entry⟩ := answered before e after cut
      exact List.mem_map.mpr ⟨_, entry, rfl⟩
  · exact answered

theorem declarations_read_back_signed : ∃ (is : List Instruction)
    (ds : List (DeclarationCall × Id)),
    (instructionCodec linuxX86).readAll ((SizedModule.new linuxX86 0).run linuxX86
      [.type (.typeSInt 32), .type (.typeInt 32 true),
        .constant (.constant ⟨1⟩ (.s32 7))]).declarations.stream.written = some is ∧
    is.map readDeclared = ds.map some ∧ (ds.map Prod.fst).Nodup ∧
    (.type (.typeInt 32 true), ⟨1⟩) ∈ ds ∧ (.constant (.constant ⟨1⟩ (.u32 7)), ⟨2⟩) ∈ ds := by
  obtain ⟨is, ds, read, calls, distinct, _, _, answered⟩ := declarations_read_back linuxX86 0
    [.type (.typeSInt 32), .type (.typeInt 32 true), .constant (.constant ⟨1⟩ (.s32 7))]
    (by decide) (by
      intro d member
      simp only [List.mem_cons, List.not_mem_nil, or_false] at member
      rcases d with c | c <;> rcases member with same | same | same <;> cases same <;> trivial)
    (by decide) (by decide) (by decide)
  obtain ⟨i, first, signed⟩ := answered [] (.type (.typeSInt 32)) _ rfl
  obtain ⟨j, second, constant⟩ := answered [.type (.typeSInt 32), .type (.typeInt 32 true)]
    (.constant (.constant ⟨1⟩ (.s32 7))) [] rfl
  obtain rfl : (⟨1⟩ : Id) = i := Option.some.inj first
  obtain rfl : (⟨2⟩ : Id) = j := Option.some.inj second
  exact ⟨is, ds, read, calls, distinct, signed, constant⟩

end Sirit
