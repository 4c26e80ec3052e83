import Sirit.Declare

/- Stores inside the vectors: how many words a method writes, against how many it reserves
   and how many an earlier call left allocated behind the insertion index. -/
namespace Sirit
open VectorCursor
variable (pf : Platform)

@[simp] theorem operandsWidth_nil : operandsWidth [] = 0 := rfl

@[simp] theorem operandsWidth_cons (o : Operand) (operands : List Operand) :
    operandsWidth (o :: operands) = o.width + operandsWidth operands := by
  simp [operandsWidth]

@[simp] theorem operandsWidth_append (first second : List Operand) :
    operandsWidth (first ++ second) = operandsWidth first + operandsWidth second := by
  simp [operandsWidth]

@[simp] theorem operandsWidth_span_id (ids : List Id) :
    operandsWidth (span .id ids) = ids.length := by
  induction ids with
  | nil => rfl
  | cons id ids ih =>
    simp only [span, List.map_cons, operandsWidth_cons, Operand.width, List.length_cons] at *
    omega

def wideLiterals (literals : List Literal) : Nat := literals.countP fun l => decide l.Wide

@[simp] theorem wideLiterals_cons (l : Literal) (literals : List Literal) :
    wideLiterals (l :: literals) = wideLiterals literals + if l.Wide then 1 else 0 := by
  simp [wideLiterals, List.countP_cons]

theorem wideLiterals_eq_zero_iff {literals : List Literal} :
    wideLiterals literals = 0 ↔ ∀ l ∈ literals, ¬ l.Wide := by
  simp [wideLiterals, List.countP_eq_zero]

@[simp] theorem operandsWidth_span_literal (literals : List Literal) :
    operandsWidth (span .literal literals) = literals.length + wideLiterals literals := by
  induction literals with
  | nil => rfl
  | cons l literals ih =>
    have first := l.width_eq
    simp only [span, List.map_cons, operandsWidth_cons, Operand.width, List.length_cons,
      wideLiterals_cons] at *
    omega

@[simp] theorem operandsWidth_optional_enum (value : Option U32) :
    operandsWidth (optional .enum value) = if value.isSome then 1 else 0 := by
  cases value <;> rfl

@[simp] theorem operandsWidth_optional_id (value : Option Id) :
    operandsWidth (optional .id value) = if value.isSome then 1 else 0 := by
  cases value <;> rfl

@[simp] theorem operandsWidth_arms (arms : List (Literal × Id)) :
    operandsWidth (arms.flatMap fun arm => [.literal arm.1, .id arm.2]) =
      2 * arms.length + wideLiterals (arms.map Prod.fst) := by
  induction arms with
  | nil => rfl
  | cons arm arms ih =>
    have first := arm.1.width_eq
    simp only [List.flatMap_cons, operandsWidth_append, operandsWidth_cons, Operand.width,
      operandsWidth_nil, List.length_cons, List.map_cons, wideLiterals_cons, ih]
    omega

section Width
variable (reserved : Nat) (opcode : Op) (operands : List Operand)

@[simp] theorem Emission.width_op :
    (⟨reserved, .op opcode, operands⟩ : Emission).width = 1 + operandsWidth operands := rfl

@[simp] theorem Emission.width_bare :
    (⟨reserved, .bare opcode, operands⟩ : Emission).width = 2 + operandsWidth operands := rfl

theorem Emission.width_typed {resultType : Id} (given : resultType.value ≠ 0) :
    (⟨reserved, .typed opcode resultType, operands⟩ : Emission).width =
      3 + operandsWidth operands := by
  simp only [Emission.width, Head.typed, Head.width, OpId.width, OpId.resultType,
    typeWords_some given]
  rfl

/-- Without the assert, a zero result type saves a word. -/
theorem Emission.width_typed_le (resultType : Id) :
    (⟨reserved, .typed opcode resultType, operands⟩ : Emission).width ≤
      3 + operandsWidth operands := by
  have short := typeWords_length_le resultType.value
  simp only [Emission.width, Head.typed, Head.width, OpId.width, OpId.resultType]
  omega

@[simp] theorem Declaration.width_bare :
    (⟨reserved, .bare opcode, operands⟩ : Declaration).width = 2 + operandsWidth operands := rfl

theorem Declaration.width_typed_le (resultType : Id) :
    (⟨reserved, .typed opcode resultType, operands⟩ : Declaration).width ≤
      3 + operandsWidth operands :=
  Emission.width_typed_le reserved opcode operands resultType

end Width

def Module.overruns (m : Module) : Nat :=
  m.extInstImports.overruns + m.entryPoints.overruns + m.executionModes.overruns +
    m.debug.overruns + m.annotations.overruns + m.declarations.stream.overruns +
    m.globalVariables.overruns + m.code.overruns

/-- Every index the call writes is below the size of the vector written to. -/
def Module.StaysInside (m : Module) (c : Call) : Prop :=
  (m.exec pf c).2.overruns = m.overruns

instance (m : Module) (c : Call) : Decidable (m.StaysInside pf c) :=
  inferInstanceAs (Decidable (_ = _))

theorem Module.overruns_emit (m : Module) (sec : Section) (e : Emission) :
    (m.emit pf sec e).2.overruns =
      m.overruns + (e.width - max (m.stream sec).slack e.reserved) := by
  have moved := Stream.overruns_emit pf e (m.stream sec) m.bound
  cases sec <;>
    simp only [Module.emit, Module.setStream, Module.stream, Module.overruns] at * <;>
    omega

theorem Module.overruns_declare (m : Module) (e : Declaration) :
    (m.declare pf e).2.overruns =
      m.overruns + (e.width - max m.declarations.stream.slack e.reserved) := by
  have moved := m.declarations.declare_overruns pf e m.bound
  simp only [Module.declare, Module.overruns] at *
  omega

theorem Module.staysInside_emit (m : Module) {c : Call} {sec : Section} {e : Emission}
    {returned : Returned} (emits : c.action = .emit sec e returned) :
    m.StaysInside pf c ↔ e.width ≤ e.reserved ∨ e.width ≤ (m.stream sec).slack := by
  have moved := m.overruns_emit pf sec e
  simp only [Module.StaysInside, Module.exec, emits, Module.perform, moved]
  omega

theorem Module.staysInside_declare (m : Module) {c : Call} {e : Declaration}
    (declares : c.action = .declare e) :
    m.StaysInside pf c ↔
      e.width ≤ e.reserved ∨ e.width ≤ m.declarations.stream.slack := by
  have moved := m.overruns_declare pf e
  simp only [Module.StaysInside, Module.exec, declares, Module.perform, moved]
  omega

def TypeCall.IsPipe : TypeCall → Prop
  | .typePipe _ => True
  | _ => False

def DeclarationCall.IsPipe : DeclarationCall → Prop
  | .type c => c.IsPipe
  | .constant _ => False

/-- `TypePipe` writes its access qualifier into a word it did not ask for. -/
theorem TypeCall.width_of_isPipe {c : TypeCall} (pipe : c.IsPipe) :
    c.declaration.width = 3 ∧ c.declaration.reserved = 2 := by
  cases c <;> simp only [TypeCall.IsPipe] at pipe
  exact ⟨rfl, rfl⟩

theorem TypeCall.width_le_reserved {c : TypeCall} (other : ¬ c.IsPipe) :
    c.declaration.width ≤ c.declaration.reserved := by
  cases c with
  | typePipe accessQualifier => exact absurd trivial other
  | typeImage sampledType dim depth arrayed ms sampled imageFormat accessQualifier =>
    -- one word is reserved for the qualifier whether or not it is there
    cases accessQualifier <;> simp [TypeCall.declaration, Operand.width]
  | typeOpaque name =>
    simp only [TypeCall.declaration, Declaration.width_bare, operandsWidth_cons,
      operandsWidth_nil, Operand.width]
    omega
  | _ => simp [TypeCall.declaration, Sirit.typeInt, Operand.width] <;> omega

theorem ConstantCall.width_le_reserved (c : ConstantCall) :
    c.declaration.width ≤ c.declaration.reserved := by
  cases c with
  | constant resultType literal =>
    have wide := literal.width_eq
    refine Nat.le_trans (Declaration.width_typed_le _ _ _ resultType) ?_
    simp only [ConstantCall.declaration, operandsWidth_cons, operandsWidth_nil, Operand.width]
    split at wide <;> omega
  | _ =>
    refine Nat.le_trans (Declaration.width_typed_le _ _ _ _) ?_
    simp [ConstantCall.declaration, Operand.width]

theorem DeclarationCall.width_le_reserved_iff (d : DeclarationCall) :
    d.declaration.width ≤ d.declaration.reserved ↔ ¬ d.IsPipe := by
  cases d with
  | constant c => exact iff_of_true c.width_le_reserved (fun pipe => pipe)
  | type c =>
    constructor
    · intro fits pipe
      obtain ⟨long, short⟩ := TypeCall.width_of_isPipe pipe
      simp only [DeclarationCall.declaration] at fits
      omega
    · exact fun other => TypeCall.width_le_reserved other

theorem Module.staysInside_declaration (m : Module) (d : DeclarationCall) :
    m.StaysInside pf d.call ↔ (d.IsPipe → 3 ≤ m.declarations.stream.slack) := by
  rw [m.staysInside_declare pf d.action_call, d.width_le_reserved_iff]
  by_cases pipe : d.IsPipe
  · have long : d.declaration.width = 3 := by
      cases d with
      | type c => exact (TypeCall.width_of_isPipe pipe).1
      | constant c => exact absurd pipe (fun none => none)
    simp [pipe, long]
  · simp [pipe]

def Call.literals : Call → Option (List Literal)
  | .annotate (.decorate _ _ literals) => some literals
  | .annotate (.memberDecorate _ member _ literals) => some (member :: literals)
  | .addExecutionMode _ _ literals => some literals
  | .flow (.opSwitch _ _ literals _) => some literals
  | .memory (.opCompositeInsert _ _ _ indexes) => some indexes
  | .memory (.opCompositeExtract _ _ indexes) => some indexes
  | .debug (.opLine _ line column) => some [line, column]
  | _ => none

theorem Call.width_of_literals {c : Call} {ls : List Literal} (taken : c.literals = some ls)
    (asserts : c.Asserts) : ∃ sec e returned, c.action = .emit sec e returned ∧
      e.width = e.reserved + wideLiterals ls := by
  obtain ⟨stream, method⟩ := asserts
  unfold Call.literals at taken
  split at taken <;> simp only [Option.some.injEq, reduceCtorEq] at taken <;> subst taken
  case h_1 target decoration literals =>
    refine ⟨_, _, _, rfl, ?_⟩
    simp only [AnnotationCall.emission, Emission.width_op, operandsWidth_append,
      operandsWidth_cons, operandsWidth_nil, operandsWidth_span_literal, Operand.width]
    omega
  case h_2 structureType member decoration literals =>
    have first := member.width_eq
    refine ⟨_, _, _, rfl, ?_⟩
    simp only [AnnotationCall.emission, Emission.width_op, operandsWidth_append,
      operandsWidth_cons, operandsWidth_nil, operandsWidth_span_literal, Operand.width,
      wideLiterals_cons]
    omega
  case h_3 entryPoint mode literals =>
    refine ⟨_, _, _, rfl, ?_⟩
    simp only [Sirit.addExecutionMode, Emission.width_op, operandsWidth_append,
      operandsWidth_cons, operandsWidth_nil, operandsWidth_span_literal, Operand.width]
    omega
  case h_4 selector defaultLabel literals labels =>
    have paired : literals.length = labels.length := method
    refine ⟨_, _, _, rfl, ?_⟩
    simp only [FlowCall.emission, Emission.width_op, operandsWidth_append,
      operandsWidth_cons, operandsWidth_nil, operandsWidth_arms, Operand.width,
      List.length_zip, List.map_fst_zip (Nat.le_of_eq paired), ← paired, Nat.min_self]
    omega
  case h_5 resultType object composite indexes =>
    refine ⟨_, _, _, rfl, ?_⟩
    rw [MemoryCall.emission, Emission.width_typed _ _ _ stream.1]
    simp only [operandsWidth_append, operandsWidth_cons, operandsWidth_nil,
      operandsWidth_span_literal, Operand.width]
    omega
  case h_6 resultType composite indexes =>
    refine ⟨_, _, _, rfl, ?_⟩
    rw [MemoryCall.emission, Emission.width_typed _ _ _ stream.1]
    simp only [operandsWidth_append, operandsWidth_cons, operandsWidth_nil,
      operandsWidth_span_literal, Operand.width]
    omega
  case h_7 file line column =>
    have first := line.width_eq
    have second := column.width_eq
    refine ⟨_, _, _, rfl, ?_⟩
    simp only [DebugCall.emission, Emission.width_op, operandsWidth_cons, operandsWidth_nil,
      Operand.width, wideLiterals_cons]
    simp only [wideLiterals, List.countP_nil]
    omega

def Module.LiteralsFit (m : Module) (c : Call) : Prop :=
  ∀ ls sec e returned, c.literals = some ls → c.action = .emit sec e returned →
    (∀ l ∈ ls, ¬ l.Wide) ∨ e.reserved + wideLiterals ls ≤ (m.stream sec).slack

theorem Module.staysInside_literals (m : Module) {c : Call} (asserts : c.Asserts) :
    (∀ ls, c.literals = some ls → m.StaysInside pf c) ↔ m.LiteralsFit c := by
  constructor
  · intro inside ls sec e returned taken emits
    obtain ⟨sec', e', returned', emits', width⟩ := Call.width_of_literals taken asserts
    rw [emits] at emits'
    cases emits'
    rw [← wideLiterals_eq_zero_iff]
    have fits := (m.staysInside_emit pf emits).mp (inside ls taken)
    omega
  · intro fit ls taken
    obtain ⟨sec, e, returned, emits, width⟩ := Call.width_of_literals taken asserts
    rw [m.staysInside_emit pf emits]
    have room := fit ls sec e returned taken emits
    rw [← wideLiterals_eq_zero_iff] at room
    omega

/-- In a run, the stores of the methods with Literal operands are inside exactly when no
    operand is wide, or the second words of the wide ones find room left over. -/
theorem Module.literals_stay_inside_iff (version : U32) {calls : List Call}
    (asserts : ∀ c ∈ calls, c.Asserts) :
    (∀ (c : Call) (ls : List Literal), c.literals = some ls → c.Asserts → ∃ sec e returned,
      c.action = .emit sec e returned ∧ (e.width ≤ e.reserved ↔ ∀ l ∈ ls, ¬ l.Wide)) ∧
    (∀ c : Call, c.Asserts →
      ((∀ ls, c.literals = some ls →
          ((Module.new pf version).run pf calls).StaysInside pf c) ↔
        ((Module.new pf version).run pf calls).LiteralsFit c)) ∧
    ((Module.new pf version).Throughout pf
        (fun m c => ∀ ls, c.literals = some ls → m.StaysInside pf c) calls ↔
      (Module.new pf version).Throughout pf Module.LiteralsFit calls) := by
  refine ⟨?_, ?_, ?_⟩
  · intro c ls taken meets
    obtain ⟨sec, e, returned, emits, width⟩ := Call.width_of_literals taken meets
    refine ⟨sec, e, returned, emits, ?_⟩
    rw [← wideLiterals_eq_zero_iff]
    omega
  · intro c meets
    exact Module.staysInside_literals pf _ meets
  · apply Runs.throughout_congr
    intro m c member
    exact m.staysInside_literals pf (asserts c member)

theorem literals_stay_inside_narrow :
    (Module.new linuxX86 0).Throughout linuxX86
      (fun m c => ∀ ls, c.literals = some ls → m.StaysInside linuxX86 c)
      [.annotate (.decorate ⟨1⟩ 0 [.float 0]), .flow (.opSwitch ⟨1⟩ ⟨2⟩ [.u32 7] [⟨3⟩])] := by
  refine (Module.literals_stay_inside_iff linuxX86 0 (by decide)).2.2.mpr ?_
  refine ⟨?_, ?_, trivial⟩
  · intro ls sec e returned taken _
    cases taken
    exact Or.inl (by decide)
  · intro ls sec e returned taken _
    cases taken
    exact Or.inl (by decide)

/-- On a new module, a decoration with a 64-bit literal stores its high word past the
    end. -/
theorem wide_decoration_on_new_module_misses :
    ¬ ∀ (pf : Platform) (version : U32) (calls : List Call) (c : Call) (ls : List Literal),
      c.literals = some ls → c.Asserts →
        ((Module.new pf version).run pf calls).StaysInside pf c := by
  intro always
  have inside := always linuxX86 0 [] (.annotate (.decorate ⟨1⟩ 0 [.u64 0])) [.u64 0] rfl
    (by decide)
  exact absurd inside (by decide)

def ImageCall.MaskUncounted : ImageCall → Prop
  | .opImageSparseGather _ _ _ _ imageOperands _ => imageOperands.isSome
  | .opImageSparseDrefGather _ _ _ _ imageOperands _ => imageOperands.isSome
  | _ => False

theorem ImageCall.width_le_reserved {c : ImageCall} (counted : ¬ c.MaskUncounted) :
    c.emission.width ≤ c.emission.reserved := by
  cases c with
  | opImageSparseGather t s coordinate component mask ids =>
    cases mask with
    | some mask => exact absurd rfl counted
    | none =>
      refine Nat.le_trans (Emission.width_typed_le _ _ _ _) ?_
      simp [ImageCall.emission, Operand.width]
      omega
  | opImageSparseDrefGather t s coordinate dref mask ids =>
    cases mask with
    | some mask => exact absurd rfl counted
    | none =>
      refine Nat.le_trans (Emission.width_typed_le _ _ _ _) ?_
      simp [ImageCall.emission, Operand.width]
      omega
  | opImageWrite image coordinate texel mask ids =>
    cases mask <;> simp [ImageCall.emission, Operand.width] <;> omega
  | _ =>
    refine Nat.le_trans (Emission.width_typed_le _ _ _ _) ?_
    simp [ImageCall.emission, defineImageOp, defineImageExpOp, defineImageExtraOp,
      defineImageExtraExpOp, defineImageQueryOp, defineImageQueryBinOp, Operand.width]
    try split
    all_goals omega

theorem ImageCall.width_of_maskUncounted {c : ImageCall} (uncounted : c.MaskUncounted)
    (asserts : c.emission.Asserts) : c.emission.width = c.emission.reserved + 1 := by
  cases c with
  | opImageSparseGather t s coordinate component mask ids =>
    obtain ⟨mask, rfl⟩ := Option.isSome_iff_exists.mp uncounted
    rw [ImageCall.emission, Emission.width_typed _ _ _ asserts.1]
    simp [Operand.width]
    omega
  | opImageSparseDrefGather t s coordinate dref mask ids =>
    obtain ⟨mask, rfl⟩ := Option.isSome_iff_exists.mp uncounted
    rw [ImageCall.emission, Emission.width_typed _ _ _ asserts.1]
    simp [Operand.width]
    omega
  | _ => exact absurd uncounted (fun none => none)

theorem ImageCall.width_le_reserved_iff {c : ImageCall} (asserts : c.emission.Asserts) :
    c.emission.width ≤ c.emission.reserved ↔ ¬ c.MaskUncounted := by
  constructor
  · intro fits uncounted
    have width := ImageCall.width_of_maskUncounted uncounted asserts
    omega
  · exact ImageCall.width_le_reserved

theorem Module.staysInside_image (m : Module) {c : ImageCall}
    (asserts : c.emission.Asserts) :
    m.StaysInside pf (.image c) ↔
      (c.MaskUncounted → c.emission.reserved < m.code.slack) := by
  rw [m.staysInside_emit pf (c := .image c) rfl, ImageCall.width_le_reserved_iff asserts]
  by_cases uncounted : c.MaskUncounted
  · have width := ImageCall.width_of_maskUncounted uncounted asserts
    simp only [uncounted, not_true_eq_false, false_or, true_implies, Module.stream]
    omega
  · simp [uncounted]

/-- In a run, the stores of the image methods are inside exactly when each sparse gather
    with a mask finds one word more than it asks for left over. -/
theorem Module.images_stay_inside_iff (version : U32) {calls : List Call}
    (asserts : ∀ c ∈ calls, c.Asserts) :
    (∀ c : ImageCall, c.emission.Asserts →
      (c.emission.width ≤ c.emission.reserved ↔ ¬ c.MaskUncounted) ∧
      (((Module.new pf version).run pf calls).StaysInside pf (.image c) ↔
        (c.MaskUncounted →
          c.emission.reserved < ((Module.new pf version).run pf calls).code.slack))) ∧
    ((Module.new pf version).Throughout pf
        (fun m c => ∀ i : ImageCall, c = .image i → m.StaysInside pf c) calls ↔
      (Module.new pf version).Throughout pf
        (fun m c => ∀ i : ImageCall, c = .image i → i.MaskUncounted →
          i.emission.reserved < m.code.slack) calls) := by
  refine ⟨?_, ?_⟩
  · intro c meets
    exact ⟨ImageCall.width_le_reserved_iff meets, Module.staysInside_image pf _ meets⟩
  · apply Runs.throughout_congr
    intro m c member
    constructor
    · intro inside i same
      subst same
      exact (m.staysInside_image pf (asserts _ member).1).mp (inside i rfl)
    · intro room i same
      subst same
      exact (m.staysInside_image pf (asserts _ member).1).mpr (room i rfl)

theorem images_stay_inside_unmasked :
    (Module.new linuxX86 0).Throughout linuxX86
      (fun m c => ∀ i : ImageCall, c = .image i → m.StaysInside linuxX86 c)
      [.image (.opImageSparseGather ⟨1⟩ ⟨2⟩ ⟨3⟩ ⟨4⟩ none [])] := by
  refine (Module.images_stay_inside_iff linuxX86 0 (by decide)).2.mpr ⟨?_, trivial⟩
  intro i same uncounted
  cases same
  cases uncounted

/-- On a new module, a sparse gather with a mask stores one word past the end. -/
theorem masked_sparse_gather_on_new_module_misses :
    ¬ ∀ (pf : Platform) (version : U32) (calls : List Call) (c : ImageCall),
      (Call.image c).Asserts →
        ((Module.new pf version).run pf calls).StaysInside pf (.image c) := by
  intro always
  have inside := always linuxX86 0 []
    (.opImageSparseGather ⟨1⟩ ⟨2⟩ ⟨3⟩ ⟨4⟩ (some 0) []) (by decide)
  exact absurd inside (by decide)

end Sirit
