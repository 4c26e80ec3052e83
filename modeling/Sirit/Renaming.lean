import Sirit.DeclarationTrees
import Sirit.Interleaving

/- Other ids in the place of the id arguments of a call. What a call does is settled by its
   ids and by the rest of its arguments; the rest is the call with all ids blanked. -/
namespace Sirit
variable (pf : Platform) (π : U32 → U32)

def Id.rename (id : Id) : Id := ⟨π id.value⟩

def Operand.rename : Operand → Operand
  | .id value => .id (value.rename π)
  | o => o

def OpId.rename : OpId → OpId
  | .bare opcode => .bare opcode
  | .typed opcode resultType => .typed opcode (resultType.rename π)

def Head.rename : Head → Head
  | .op o => .op o
  | .opId o => .opId (o.rename π)

def Emission.rename (e : Emission) : Emission :=
  ⟨e.reserved, e.head.rename π, e.operands.map (Operand.rename π)⟩

def Declaration.rename (e : Declaration) : Declaration :=
  ⟨e.reserved, e.opId.rename π, e.operands.map (Operand.rename π)⟩

def GlslInst.rename (inst : GlslInst) : GlslInst :=
  ⟨inst.resultType.rename π, inst.opcode, inst.operands.map (Id.rename π)⟩

def Returned.rename : Returned → Returned
  | .argument id => .argument (id.rename π)
  | returned => returned

def Action.rename : Action → Action
  | .emit sec e returned => .emit sec (e.rename π) (returned.rename π)
  | .declare e => .declare (e.rename π)
  | .deferPhi resultType blocks =>
      .deferPhi (resultType.rename π) (blocks.map (Id.rename π))
  | .glsl inst => .glsl (inst.rename π)
  | .addLabel label => .addLabel (label.rename π)
  | a => a

def OpId.arguments : OpId → List U32
  | .bare _ => []
  | .typed _ resultType => [resultType.value]

def Head.arguments : Head → List U32
  | .op _ => []
  | .opId o => o.arguments

def Emission.arguments (e : Emission) : List U32 :=
  e.head.arguments ++ e.operands.flatMap Operand.ids

def Returned.arguments : Returned → List U32
  | .argument id => [id.value]
  | _ => []

/-- An argument that is returned as well comes first, and is given twice. -/
def Action.arguments : Action → List U32
  | .emit _ e returned => returned.arguments ++ e.arguments
  | .declare e => e.emission.arguments
  | .deferPhi resultType blocks => resultType.value :: blocks.map Id.value
  | .glsl inst => inst.resultType.value :: inst.operands.map Id.value
  | .addLabel label => [label.value]
  | _ => []

def Action.blank (a : Action) : Action := a.rename fun _ => 1

section Blank
variable {π}

theorem Operand.blank_cases {o o' : Operand}
    (same : (o.rename fun _ => 1) = o'.rename fun _ => 1) :
    (∃ value value', o = .id value ∧ o' = .id value') ∨
      o = o' ∧ o.ids = [] ∧ ∀ π, o.rename π = o := by
  cases o <;> cases o' <;> first
    | exact Or.inl ⟨_, _, rfl, rfl⟩
    | cases same; exact Or.inr ⟨rfl, rfl, fun _ => rfl⟩
    | cases same

theorem operands_rename_of_blank {os os' : List Operand}
    (same : (os.map (Operand.rename fun _ => 1)) = os'.map (Operand.rename fun _ => 1))
    (ids : os'.flatMap Operand.ids = (os.flatMap Operand.ids).map π) :
    os' = os.map (Operand.rename π) := by
  induction os generalizing os' with
  | nil => exact List.map_eq_nil_iff.mp same.symm
  | cons o os ih =>
    cases os' with
    | nil => cases same
    | cons o' os' =>
      obtain ⟨first, rest⟩ := List.cons.inj same
      rw [List.flatMap_cons, List.flatMap_cons, List.map_append] at ids
      rcases Operand.blank_cases first with ⟨value, value', rfl, rfl⟩ | ⟨rfl, none, fixed⟩
      · obtain ⟨here, later⟩ := List.cons.inj ids
        rw [List.map_cons, ← ih rest later]
        exact congrArg (fun v => Operand.id ⟨v⟩ :: os') here
      · rw [none] at ids
        rw [List.map_cons, ← ih rest ids, fixed]

theorem ids_rename_of_blank {ids ids' : List Id}
    (values : ids'.map Id.value = (ids.map Id.value).map π) :
    ids' = ids.map (Id.rename π) := by
  have injective : Function.Injective Id.value := by
    rintro ⟨i⟩ ⟨j⟩ same
    exact congrArg Id.mk same
  apply List.map_injective_iff.mpr injective
  rw [values, List.map_map, List.map_map]
  rfl

theorem Emission.rename_of_blank {e e' : Emission}
    (same : (e.rename fun _ => 1) = e'.rename fun _ => 1)
    (ids : e'.arguments = e.arguments.map π) : e' = e.rename π := by
  obtain ⟨reserved, head, operands⟩ := e
  obtain ⟨reserved', head', operands'⟩ := e'
  obtain ⟨rfl, heads, rest⟩ := Emission.mk.inj same
  simp only [Emission.arguments, List.map_append] at ids
  have heads' : head' = head.rename π ∧
      operands'.flatMap Operand.ids = (operands.flatMap Operand.ids).map π := by
    rcases head with op | (opcode | ⟨opcode, resultType⟩) <;>
      rcases head' with op' | (opcode' | ⟨opcode', resultType'⟩) <;> cases heads
    · exact ⟨rfl, ids⟩
    · exact ⟨rfl, ids⟩
    · obtain ⟨here, later⟩ := List.cons.inj ids
      exact ⟨congrArg (fun v => Head.opId (.typed opcode ⟨v⟩)) here, later⟩
  simp only [Emission.rename]
  rw [← heads'.1, ← operands_rename_of_blank rest heads'.2]

theorem Action.rename_of_blank {a a' : Action} (same : a.blank = a'.blank)
    (ids : a'.arguments = a.arguments.map π) : a' = a.rename π := by
  cases a with
  | emit sec e returned =>
    cases a' with
    | emit sec' e' returned' =>
      obtain ⟨rfl, emissions, returns⟩ := Action.emit.inj same
      simp only [Action.arguments, List.map_append] at ids
      have parts : returned' = returned.rename π ∧ e'.arguments = e.arguments.map π := by
        cases returned <;> cases returned' <;> cases returns
        · exact ⟨rfl, ids⟩
        · exact ⟨rfl, ids⟩
        · obtain ⟨here, later⟩ := List.cons.inj ids
          exact ⟨congrArg (fun v => Returned.argument ⟨v⟩) here, later⟩
      simp only [Action.rename]
      rw [parts.1, Emission.rename_of_blank emissions parts.2]
    | _ => cases same
  | declare e =>
    cases a' with
    | declare e' =>
      have emissions : (e.emission.rename fun _ => 1) = e'.emission.rename fun _ => 1 :=
        congrArg Declaration.emission (Action.declare.inj same)
      have renamed := Emission.rename_of_blank emissions ids
      obtain ⟨reserved, opId, operands⟩ := e
      obtain ⟨reserved', opId', operands'⟩ := e'
      have reserves : reserved' = reserved := congrArg Emission.reserved renamed
      have heads : opId' = opId.rename π := Head.opId.inj (congrArg Emission.head renamed)
      have rest : operands' = operands.map (Operand.rename π) :=
        congrArg Emission.operands renamed
      simp only [Action.rename, Declaration.rename]
      rw [reserves, heads, rest]
    | _ => cases same
  | deferPhi resultType blocks =>
    cases a' with
    | deferPhi resultType' blocks' =>
      obtain ⟨here, later⟩ := List.cons.inj ids
      simp only [Action.rename]
      rw [← ids_rename_of_blank later]
      exact congrArg (fun v => Action.deferPhi ⟨v⟩ blocks') here
    | _ => cases same
  | glsl inst =>
    cases a' with
    | glsl inst' =>
      obtain ⟨resultType, opcode, operands⟩ := inst
      obtain ⟨resultType', opcode', operands'⟩ := inst'
      obtain ⟨here, later⟩ := List.cons.inj ids
      obtain ⟨_, rfl, _⟩ := GlslInst.mk.inj (Action.glsl.inj same)
      simp only [Action.rename, GlslInst.rename]
      rw [← ids_rename_of_blank later]
      exact congrArg (fun v => Action.glsl ⟨⟨v⟩, opcode, operands'⟩) here
    | _ => cases same
  | addLabel label =>
    cases a' with
    | addLabel label' => exact congrArg (fun v => Action.addLabel ⟨v⟩) (List.cons.inj ids).1
    | _ => cases same
  | _ =>
    cases a' with
    | emit _ _ _ | declare _ | deferPhi _ _ | glsl _ | addLabel _ => cases same
    | _ => exact same.symm

end Blank

/-- The calls whose answer stands for something the caller asked for. The others that
    return an id return the last one that was allocated, whatever it was for. -/
def Action.defines : Action → Bool
  | .emit _ ⟨_, .opId _, _⟩ .endOp | .emit _ _ (.argument _) => true
  | .declare _ | .deferPhi _ _ | .glsl _ | .addLabel _ | .opLabel => true
  | _ => false

theorem Action.defines_of_returnsArgument {a : Action} (returns : a.returnsArgument = true) :
    a.defines = true := by
  cases a with
  | emit sec e returned =>
    obtain ⟨reserved, head, operands⟩ := e
    cases returned with
    | argument id => cases head <;> rfl
    | _ => cases returns
  | addLabel label => rfl
  | _ => cases returns

def Action.isGlsl : Action → Bool
  | .glsl _ => true
  | _ => false

theorem Action.touches_rename (a : Action) (r : Resource) :
    (a.rename π).touches r = a.touches r := by
  cases a with
  | emit sec e returned =>
    obtain ⟨reserved, head, operands⟩ := e
    cases head <;> cases r <;> rfl
  | _ => cases r <;> rfl

theorem Action.defines_rename (a : Action) : (a.rename π).defines = a.defines := by
  cases a with
  | emit sec e returned =>
    obtain ⟨reserved, head, operands⟩ := e
    cases head <;> cases returned <;> rfl
  | _ => rfl

theorem Action.returnsArgument_rename (a : Action) :
    (a.rename π).returnsArgument = a.returnsArgument := by
  cases a with
  | emit sec e returned => cases returned <;> rfl
  | _ => rfl

theorem Action.isGlsl_rename (a : Action) : (a.rename π).isGlsl = a.isGlsl := by
  cases a <;> rfl

def Action.shape : Action → Option DeclShape
  | .declare e => some (e.key pf).shape
  | _ => none

theorem DeclarationCall.shape_blank (d : DeclarationCall)
    (given : ∀ x ∈ d.declaration.emission.arguments, x ≠ 0) :
    ((d.declaration.rename fun _ => 1).key pf).shape = (d.declaration.key pf).shape := by
  have one : (1 : U32) ≠ 0 := by decide
  cases d with
  | type c =>
    cases c with
    | typeImage sampledType dim depth arrayed ms sampled imageFormat accessQualifier =>
      cases accessQualifier <;> rfl
    | _ => rfl
  | constant c =>
    cases c with
    | constantTrue resultType | constantFalse resultType | constant resultType _
    | constantComposite resultType _ | constantSampler resultType _ _ _
    | constantNull resultType =>
      have some : resultType.value ≠ 0 := given _ List.mem_cons_self
      exact congrArg₂ (DeclShape.mk _) (decide_eq_decide.mpr (iff_of_true one some)) rfl

theorem DeclarationCall.ids_key (d : DeclarationCall)
    (given : ∀ x ∈ d.declaration.emission.arguments, x ≠ 0) :
    (d.declaration.key pf).ids = d.declaration.emission.arguments := by
  rw [← d.ids_eq pf]
  generalize d.declaration = e at given ⊢
  obtain ⟨reserved, opId, operands⟩ := e
  cases opId with
  | bare opcode => rfl
  | typed opcode resultType =>
    have some : resultType.value ≠ 0 := given _ List.mem_cons_self
    simp only [Declaration.ids, Declaration.emission, Emission.ids, Head.ids, OpId.resultType,
      typeWords_some some, Emission.arguments, Head.arguments, OpId.arguments]

end Sirit
