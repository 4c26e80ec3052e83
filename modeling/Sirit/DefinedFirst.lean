import Mathlib.Data.List.Induction
import Sirit.Imports
import Sirit.Layout
import Sirit.PhiAddress
import Sirit.Represented
import Sirit.SizedRuns

/- Definitions before uses. Declarations stand before variables and these before code, so
   only operands within one part need an argument: code and variables are appended, and
   the table of declarations refers to earlier entries only, however a call is answered. -/
namespace Sirit
open Framing Interning VectorCursor
variable (pf : Platform)

def Operand.ids : Operand → List U32
  | .id value => [value.value]
  | _ => []

def Head.ids : Head → List U32
  | .op _ => []
  | .opId o => typeWords o.resultType.value

def Emission.ids (e : Emission) : List U32 := e.head.ids ++ e.operands.flatMap Operand.ids

def Declaration.ids (e : Declaration) : List U32 := e.emission.ids

def DeclKey.ids (k : DeclKey) : List U32 :=
  typeWords k.resultType ++
    match k.op with
    | .opTypeVector | .opTypeMatrix | .opTypeImage => k.operands.take 1
    | .opTypeSampledImage | .opTypeArray | .opTypeRuntimeArray | .opTypeStruct
    | .opTypeFunction | .opConstantComposite => k.operands
    | .opTypePointer => k.operands.drop 1
    | _ => []

theorem flatMap_ids_span (values : List Id) :
    (span .id values).flatMap Operand.ids = values.map Id.value := by
  induction values with
  | nil => rfl
  | cons value values ih => exact congrArg (value.value :: ·) ih

theorem DeclarationCall.ids_eq (d : DeclarationCall) :
    d.declaration.ids = (d.declaration.key pf).ids := by
  cases d with
  | type c =>
    cases c with
    | typeStruct members =>
      simp only [DeclarationCall.declaration, TypeCall.declaration, Declaration.ids,
        Emission.ids, Declaration.emission, flatMap_ids_span, DeclKey.ids, Declaration.key,
        operandWords_span_id]
      rfl
    | typeFunction returnType arguments =>
      simp only [DeclarationCall.declaration, TypeCall.declaration, Declaration.ids,
        Emission.ids, Declaration.emission, List.flatMap_append, flatMap_ids_span, DeclKey.ids,
        Declaration.key, operandWords_append, operandWords_span_id]
      rfl
    | typeImage sampledType dim depth arrayed ms sampled imageFormat accessQualifier =>
      cases accessQualifier <;> rfl
    | _ => rfl
  | constant c =>
    cases c with
    | constantComposite resultType constituents =>
      simp only [DeclarationCall.declaration, ConstantCall.declaration, Declaration.ids,
        Emission.ids, Declaration.emission, flatMap_ids_span, DeclKey.ids, Declaration.key,
        operandWords_span_id]
      rfl
    | _ => rfl

inductive Origin where
  | declaration
  | global
  | code
  | label
  deriving DecidableEq

/-- A call that allocates no id has none, even though it returns one. -/
def Action.origin : Action → Option Origin
  | .declare _ => some .declaration
  | .emit .globalVariables ⟨_, .opId _, _⟩ _ => some .global
  | .emit .code ⟨_, .opId _, _⟩ _ => some .code
  | .deferPhi _ _ | .glsl _ => some .code
  | .opLabel => some .label
  | _ => none

def Action.mayUse : Action → Origin → Bool
  | .declare _, o => o = .declaration
  | .emit .globalVariables _ _, o => o = .declaration ∨ o = .global
  | _, _ => true

def Action.idArguments : Action → List U32
  | .declare e => e.ids
  | .emit .globalVariables e _ | .emit .code e _ => e.ids
  | .deferPhi resultType blocks => (Sirit.deferredOpPhi resultType blocks).ids
  | .glsl inst => typeWords inst.resultType.value ++ inst.operands.map Id.value
  | _ => []

/-- Every id given to a call was returned by an earlier call that it may use. -/
def Supplied (earlier : List (Call × Option Id)) (c : Call) : Prop :=
  ∀ x ∈ c.action.idArguments, ∃ entry ∈ earlier, entry.2 = some ⟨x⟩ ∧
    entry.1.action.origin.any c.action.mayUse = true

instance decidableSupplied (earlier : List (Call × Option Id)) (c : Call) :
    Decidable (Supplied earlier c) :=
  List.decidableBAll (fun x => ∃ entry ∈ earlier, entry.2 = some ⟨x⟩ ∧
    entry.1.action.origin.any c.action.mayUse = true) c.action.idArguments

def Listing.part (l : Listing) : Origin → List Instruction
  | .declaration => l.declarationInstructions
  | .global => l.instructions .globalVariables
  | .code => l.instructions .code
  | .label => []

theorem Listing.part_prefix (l : Listing) (c : Call) (o : Origin) :
    l.part o <+: (l.step pf c).2.part o := by
  cases o with
  | declaration => exact (l.declarations_extends pf c).map _
  | global => exact l.instructions_prefix pf c .globalVariables
  | code => exact l.instructions_prefix pf c .code
  | label => exact List.prefix_rfl

theorem run_part (l : Listing) (calls : List Call) (o : Origin) :
    l.part o <+: (Runs.run (Listing.step pf) l calls).part o := by
  apply Runs.invariant_run (I := fun u : Listing => l.part o <+: u.part o)
  · exact fun u c _ grown => grown.trans (u.part_prefix pf c o)
  · exact List.prefix_rfl

theorem Listing.mem_emitted_of_part {l : Listing} {o : Origin} {i : Instruction}
    (member : i ∈ l.part o) : i ∈ l.emitted := by
  rw [Listing.mem_emitted_iff]
  cases o with
  | declaration => exact Or.inr member
  | global => exact Or.inl ⟨.globalVariables, member⟩
  | code => exact Or.inl ⟨.code, member⟩
  | label => exact absurd member List.not_mem_nil

theorem Call.eq_opLabel {c : Call} (origin : c.action.origin = some .label) : c = .opLabel := by
  cases action : c.action with
  | emit sec e returned =>
    obtain ⟨reserved, head, operands⟩ := e
    rw [action] at origin
    cases sec <;> cases head <;> cases origin
  | opLabel =>
    cases c with
    | opLabel => rfl
    | _ => cases action
  | _ =>
    rw [action] at origin
    cases origin

theorem Listing.emit_supplies (l : Listing) (sec : Section) {e : Emission} {opId : OpId}
    (head : e.head = .opId opId) : ∃ i ∈ (l.emit pf sec e).2.instructions sec,
      i.result = some (l.emit pf sec e).1.value := by
  refine ⟨e.instruction pf l.bound, ?_, ?_⟩
  · rw [l.instructions_emit pf sec sec e, if_pos rfl]
    exact List.mem_append_right _ List.mem_cons_self
  · simp only [Emission.instruction, Listing.emit, Emission.nextBound, head]

theorem Listing.step_supplies {l : Listing} {c : Call} {o : Origin} {id : Id}
    (origin : c.action.origin = some o) (defines : o ≠ .label)
    (answer : (l.step pf c).1 = some id) :
    ∃ i ∈ (l.step pf c).2.part o, i.result = some id.value := by
  have well := c.wellPlaced
  unfold Listing.step at answer ⊢
  cases action : c.action with
  | emit sec e returned =>
    rw [action] at origin answer well
    obtain ⟨reserved, head, operands⟩ := e
    simp only [Action.wellPlaced, Bool.and_eq_true] at well
    cases head with
    | op opcode => cases sec <;> cases origin
    | opId opId =>
      have listed := l.emit_supplies pf sec (e := ⟨reserved, .opId opId, operands⟩) rfl
      cases returned with
      | endOp =>
        obtain rfl := Option.some.inj answer
        cases sec <;> cases origin
        · exact listed
        · exact listed
      | nothing => exact absurd well.2 Bool.false_ne_true
      | argument other => exact absurd well.2 Bool.false_ne_true
  | declare e =>
    rw [action] at origin answer
    cases origin
    obtain rfl := Option.some.inj answer
    exact ⟨_, List.mem_map.mpr ⟨_, l.declarations.intern_mem (e.key pf) (l.bound + 1), rfl⟩,
      rfl⟩
  | deferPhi resultType blocks =>
    rw [action] at origin answer
    cases origin
    obtain rfl := Option.some.inj answer
    exact l.emit_supplies pf .code rfl
  | glsl inst =>
    rw [action] at origin answer
    cases origin
    obtain rfl := Option.some.inj answer
    exact (l.getGLSLstd450 pf).2.emit_supplies pf .code rfl
  | opLabel =>
    rw [action] at origin
    cases origin
    exact absurd rfl defines
  | _ =>
    rw [action] at origin
    cases origin

theorem listing_supplies (version : U32) {calls : List Call} {c : Call} {o : Origin} {id : Id}
    (entry : (c, some id) ∈ Runs.trace (Listing.step pf) (Listing.new pf version) calls)
    (origin : c.action.origin = some o) (defines : o ≠ .label) :
    ∃ i ∈ (listing pf version calls).part o, i.result = some id.value := by
  obtain ⟨before, after, rfl, answer⟩ := Runs.mem_trace_iff.mp entry
  obtain ⟨i, member, result⟩ := Listing.step_supplies pf origin defines answer.symm
  rw [listing, Runs.run_append, Runs.run_cons]
  exact ⟨i, (run_part pf _ after o).subset member, result⟩

section Declarations
variable (version : U32) {calls : List Call}
  (supplied : ∀ before c after, calls = before ++ c :: after →
    Supplied (Runs.trace (Listing.step pf) (Listing.new pf version) before) c)
include supplied

theorem declaration_known {before after : List Call} {d : DeclarationCall}
    (cut : calls = before ++ d.call :: after) : ∀ x ∈ d.declaration.ids,
      x ∈ (listing pf version before).declarations.entries.map Prod.snd := by
  intro x used
  have given := supplied before d.call after cut
  rw [Supplied, d.action_call] at given
  obtain ⟨⟨c, r⟩, entry, rfl, source⟩ := given x used
  obtain ⟨o, origin, may⟩ := (Option.any_eq_true _ _).mp source
  obtain rfl : o = .declaration := by simpa [Action.mayUse] using may
  obtain ⟨i, member, result⟩ := listing_supplies pf version entry origin (by decide)
  obtain ⟨e, inside, rfl⟩ := List.mem_map.mp member
  exact List.mem_map.mpr ⟨e, inside, Option.some.inj result⟩

theorem listing_closed :
    Closed DeclKey.ids (listing pf version calls).declarations.entries := by
  induction calls using List.reverseRecOn with
  | nil => exact Closed.nil
  | append_singleton calls c ih =>
    have closed := ih fun before d after cut => supplied before d (after ++ [c]) (by
      rw [cut, List.append_assoc, List.cons_append])
    rw [listing_snoc]
    by_cases declares : ∃ e, c.action = .declare e
    · obtain ⟨e, action⟩ := declares
      obtain ⟨d, rfl, rfl⟩ := Call.exists_declarationCall action
      have known := declaration_known pf version supplied rfl
      rw [d.ids_eq pf] at known
      rw [Listing.step, action]
      exact closed.intern known _
    · rw [Listing.step_declarations pf _ fun e action => declares ⟨e, action⟩]
      exact closed

end Declarations

theorem Refines.step_code {tracked : Section → Prop} {m : Module} {l : Listing}
    (refines : Refines pf tracked m l) {c : Call} {e : Emission} {bound : U32}
    (emits : m.codeEmission pf c.action = some (e, bound)) :
    (l.step pf c).2.instructions .code = l.instructions .code ++ [e.instruction pf bound] := by
  unfold Listing.step
  cases action : c.action with
  | emit sec e' returned =>
    rw [action] at emits
    cases sec <;> cases emits
    rw [refines.bound]
    exact l.instructions_emit pf .code .code e
  | deferPhi resultType blocks =>
    rw [action] at emits
    cases emits
    rw [refines.bound]
    exact l.instructions_emit pf .code .code _
  | glsl inst =>
    rw [action] at emits
    cases emits
    obtain ⟨set, after⟩ := refines.getGLSLstd450
    rw [set, after.bound, ← l.instructions_getGLSLstd450 pf (by decide)]
    exact (l.getGLSLstd450 pf).2.instructions_emit pf .code .code _
  | _ =>
    rw [action] at emits
    cases emits

theorem Module.ids_codeEmission {m : Module} {a : Action} {e : Emission} {bound : U32}
    (emits : m.codeEmission pf a = some (e, bound)) {x : U32} (used : x ∈ e.ids) :
    x ∈ a.idArguments ∨ (∃ inst, a = .glsl inst) ∧ x = (m.getGLSLstd450 pf).1.value := by
  cases a with
  | emit sec e' returned =>
    cases sec <;> cases emits
    exact Or.inl used
  | deferPhi resultType blocks =>
    cases emits
    exact Or.inl used
  | glsl inst =>
    cases emits
    simp only [opExtInst, Emission.ids, Head.typed, Head.ids, List.flatMap_append,
      flatMap_ids_span, List.flatMap_cons, List.flatMap_nil, Operand.ids, List.mem_append,
      List.mem_singleton, List.not_mem_nil, or_false] at used
    rw [Action.idArguments, List.mem_append]
    rcases used with type | set | operand
    · exact Or.inl (Or.inl type)
    · exact Or.inr ⟨⟨inst, rfl⟩, set⟩
    · exact Or.inl (Or.inr operand)
  | _ => cases emits

theorem listing_import (version : U32) (before after : List Call) {c : Call} {inst : GlslInst}
    (action : c.action = .glsl inst) :
    importInstruction pf ((listing pf version before).getGLSLstd450 pf).1.value ∈
      (listing pf version (before ++ c :: after)).instructions .extInstImports := by
  have first : ((listing pf version before).step pf c).2.glslStd450 =
      some ((listing pf version before).getGLSLstd450 pf).1 := by
    rw [Listing.step, action]
    exact (listing pf version before).getGLSLstd450_imported pf
  have kept := run_glslStd450 pf first after
  have imported := listing_imported pf version (before ++ c :: after)
  rw [listing_append, Runs.run_cons] at imported ⊢
  cases called : (before ++ c :: after).any Call.isGlsl with
  | false =>
    rw [called] at imported
    have uncalled := imported.1.symm.trans kept
    cases uncalled
  | true =>
    rw [called] at imported
    obtain ⟨set, cached, single⟩ := imported
    have same := Option.some.inj (kept.symm.trans cached)
    rw [single, same]
    exact List.mem_cons_self

/-- One instruction of the whole defines the id, and it is among the first ones. -/
def DefinedIn (first whole : List Instruction) (id : U32) : Prop :=
  ∃ i ∈ first, whole.filter (fun j => j.resultId = some id) = [i]

theorem part_subset (version : U32) (before after : List Call) (o : Origin) :
    (listing pf version before).part o ⊆ (listing pf version (before ++ after)).part o := by
  rw [listing_append]
  exact (run_part pf _ after o).subset

theorem part_appended (version : U32) (before after : List Call) {c : Call} {o : Origin}
    {i : Instruction} (appends : ((listing pf version before).step pf c).2.part o =
      (listing pf version before).part o ++ [i]) :
    ∃ more, (listing pf version (before ++ c :: after)).part o =
      (listing pf version before).part o ++ i :: more := by
  obtain ⟨more, grown⟩ := run_part pf ((listing pf version before).step pf c).2 after o
  refine ⟨more, ?_⟩
  rw [listing_append, Runs.run_cons, ← grown, appends, List.append_assoc, List.singleton_append]

theorem Listing.all_split_entry {l : Listing} {entries entries' : List (DeclKey × U32)}
    {e : DeclKey × U32} (split : l.declarations.entries = entries ++ e :: entries') :
    l.all pf = (l.preamble pf ++ entries.map fun e => e.1.instruction e.2) ++
      e.1.instruction e.2 :: ((entries'.map fun e => e.1.instruction e.2) ++
        l.instructions .globalVariables ++ l.instructions .code) := by
  simp only [Listing.all, Listing.globals, Listing.declarationInstructions, split,
    List.map_append, List.map_cons, List.append_assoc, List.cons_append]

theorem Listing.all_split_global {l : Listing} {globals more : List Instruction}
    {i : Instruction} (split : l.part .global = globals ++ i :: more) :
    l.all pf = (l.preamble pf ++ l.part .declaration ++ globals) ++
      i :: (more ++ l.instructions .code) := by
  change l.preamble pf ++ (l.part .declaration ++ l.part .global) ++ _ = _
  rw [split]
  simp only [List.append_assoc, List.cons_append]

section Positions
variable (version : U32) {calls : List Call}
  (labelled : ∀ label, Call.addLabel label ∈ calls →
    (Call.opLabel, some label) ∈ Runs.trace (Listing.step pf) (Listing.new pf version) calls)
  (few : (listing pf version calls).ids < 2 ^ 32)
  (supplied : ∀ before c after, calls = before ++ c :: after →
    Supplied (Runs.trace (Listing.step pf) (Listing.new pf version) before) c)
  {before after : List Call}
include labelled few supplied

theorem argument_defined {c : Call} (cut : calls = before ++ c :: after) :
    ∀ x ∈ c.action.idArguments,
      (∃ o, ∃ i ∈ (listing pf version before).part o, c.action.mayUse o = true ∧
        ((listing pf version calls).all pf).filter (fun j => j.resultId = some x) = [i]) ∨
      c.action.mayUse .label = true ∧
        x ∈ labelsOf (Runs.trace (Listing.step pf) (Listing.new pf version) calls) := by
  intro x used
  obtain ⟨⟨d, r⟩, entry, rfl, source⟩ := supplied before c after cut x used
  obtain ⟨o, origin, may⟩ := (Option.any_eq_true _ _).mp source
  by_cases label : o = .label
  · subst label
    obtain rfl := Call.eq_opLabel origin
    refine Or.inr ⟨may, List.mem_filterMap.mpr ⟨(.opLabel, some ⟨x⟩), ?_, rfl⟩⟩
    rw [cut, Runs.trace_append]
    exact List.mem_append_left _ entry
  · obtain ⟨i, member, result⟩ := listing_supplies pf version entry origin label
    refine Or.inl ⟨o, i, member, may, ?_⟩
    refine listing_filter_resultId pf labelled few (Listing.mem_emitted_of_part (o := o) ?_)
      result
    rw [cut]
    exact part_subset pf version before _ o member

theorem declaration_defined {d : DeclarationCall} (cut : calls = before ++ d.call :: after) :
    ∃ id first last, (((Module.new pf version).run pf before).exec pf d.call).1 = some id ∧
      (listing pf version calls).all pf =
        first ++ (d.declaration.key pf).instruction id.value :: last ∧
      ∀ x ∈ d.declaration.ids, DefinedIn first ((listing pf version calls).all pf) x := by
  have closed := listing_closed pf version supplied
  subst cut
  obtain ⟨id, answer, member⟩ := declaration_answered pf version before after d
  obtain ⟨entries, entries', split, earlier⟩ := closed.exists_before member
  refine ⟨id, _, _, answer, Listing.all_split_entry pf split, ?_⟩
  intro x used
  rw [d.ids_eq pf] at used
  obtain ⟨e, inside, rfl⟩ := List.mem_map.mp (earlier x used)
  have listed : e.1.instruction e.2 ∈ entries.map fun e => e.1.instruction e.2 :=
    List.mem_map_of_mem inside
  refine ⟨e.1.instruction e.2, List.mem_append_right _ listed, ?_⟩
  refine listing_filter_resultId pf labelled few ?_ rfl
  apply Listing.mem_emitted_of_part (o := .declaration)
  rw [Listing.part, Listing.declarationInstructions, split]
  exact List.mem_map_of_mem (List.mem_append_left _ inside)

theorem variable_defined {resultType : Id} {storageClass : U32} {initializer : Option Id}
    (cut : calls = before ++ .addGlobalVariable resultType storageClass initializer :: after) :
    ∃ first last, (listing pf version calls).all pf =
        first ++ (addVariable resultType storageClass initializer).instruction pf
          (listing pf version before).bound :: last ∧
      ∀ x ∈ (addVariable resultType storageClass initializer).ids,
        DefinedIn first ((listing pf version calls).all pf) x := by
  have arguments := argument_defined pf version labelled few supplied cut
  subst cut
  obtain ⟨more, listed⟩ := part_appended pf version before after (o := .global)
    ((listing pf version before).instructions_step pf
      (.addGlobalVariable resultType storageClass initializer) (by decide) (by decide))
  refine ⟨_, _, Listing.all_split_global pf listed, ?_⟩
  intro x used
  rcases arguments x used with ⟨o, i, member, may, single⟩ | ⟨may, _⟩
  · refine ⟨i, ?_, single⟩
    cases o with
    | declaration =>
      exact List.mem_append_left _ (List.mem_append_right _
        (part_subset pf version before _ .declaration member))
    | global => exact List.mem_append_right _ member
    | code | label => cases may
  · cases may

theorem code_defined {c : Call} (cut : calls = before ++ c :: after) {e : Emission} {bound : U32}
    (emits : ((Module.new pf version).run pf before).codeEmission pf c.action = some (e, bound))
    {tracked : Section → Prop}
    (refines : Refines pf tracked ((Module.new pf version).run pf before)
      (listing pf version before)) :
    ∃ more, (listing pf version calls).all pf =
        (listing pf version calls).preamble pf ++ (listing pf version calls).globals ++
          (listing pf version before).instructions .code ++ e.instruction pf bound :: more ∧
      ∀ x ∈ e.ids, DefinedIn ((listing pf version calls).preamble pf ++
          (listing pf version calls).globals ++ (listing pf version before).instructions .code)
        ((listing pf version calls).all pf) x ∨
          x ∈ c.action.idArguments ∧
            x ∈ labelsOf (Runs.trace (Listing.step pf) (Listing.new pf version) calls) := by
  have arguments := argument_defined pf version labelled few supplied cut
  subst cut
  obtain ⟨more, listed⟩ := part_appended pf version before after (o := .code)
    (refines.step_code pf emits)
  refine ⟨more, ?_, ?_⟩
  · change _ ++ (listing pf version _).part .code = _
    rw [listed, ← List.append_assoc]
    rfl
  · intro x used
    rcases Module.ids_codeEmission pf emits used with argument | ⟨⟨inst, action⟩, rfl⟩
    · rcases arguments x argument with ⟨o, i, member, _, single⟩ | ⟨_, label⟩
      · refine Or.inl ⟨i, ?_, single⟩
        have kept := part_subset pf version before (c :: after) o member
        cases o with
        | declaration =>
          exact List.mem_append_left _ (List.mem_append_right _ (List.mem_append_left _ kept))
        | global =>
          exact List.mem_append_left _ (List.mem_append_right _ (List.mem_append_right _ kept))
        | code => exact List.mem_append_right _ member
        | label => exact absurd member List.not_mem_nil
      · exact Or.inr ⟨argument, label⟩
    · have listed := listing_import pf version before after action
      rw [← refines.getGLSLstd450.1] at listed
      refine Or.inl ⟨_, ?_, listing_filter_resultId pf labelled few
        (Listing.mem_emitted_iff.mpr (Or.inl ⟨.extInstImports, listed⟩)) rfl⟩
      simp only [Listing.preamble, List.mem_append, listed, true_or, or_true]

end Positions

/-- The words are those of the instructions, and every id operand stands behind the only
    instruction that defines it, but for labels: those of the instruction that answers a
    declaration, of a global variable, and of what a call streams to the code, together
    with the hidden set of a helper. -/
structure UsesDefined (version : U32) (calls : List Call) (is : List Instruction) : Prop where
  words : (((SizedModule.new pf version).run pf calls).assemble pf).drop 5 =
    is.flatMap (Instruction.words pf)
  declarations : ∀ before d after, calls = before ++ DeclarationCall.call d :: after →
    ∃ id first last,
      (((SizedModule.new pf version).run pf before).exec pf d.call).1 = some id ∧
      is = first ++ (d.declaration.key pf).instruction id.value :: last ∧
      ∀ x ∈ d.declaration.ids, DefinedIn first is x
  globals : ∀ before resultType storageClass initializer after,
    calls = before ++ .addGlobalVariable resultType storageClass initializer :: after →
    ∃ first last,
      is = first ++ (addVariable resultType storageClass initializer).instruction pf
        ((SizedModule.new pf version).run pf before).bound :: last ∧
      ∀ x ∈ (addVariable resultType storageClass initializer).ids, DefinedIn first is x
  code : ∀ before c after e bound, calls = before ++ c :: after →
    ((SizedModule.new pf version).run pf before).codeEmission pf c.action = some (e, bound) →
    ∃ first last, is = first ++ e.instruction pf bound :: last ∧
      5 + (first.flatMap (Instruction.words pf)).length =
        ((SizedModule.new pf version).run pf calls).codeStart pf +
          (((SizedModule.new pf version).run pf before).streams .code).insertIndex ∧
      ∀ x ∈ e.ids, DefinedIn first is x ∨ x ∈ c.action.idArguments ∧
        x ∈ labelsOf ((SizedModule.new pf version).trace pf calls)

/-- Where every id that a call is given was returned by an earlier call it may use, and no
    store misses its vector, every use stands behind the definition. -/
theorem definitions_precede_uses (version : U32) (calls : List Call)
    (unpatched : ∀ c ∈ calls, ¬ c.action.IsPatch)
    (labelled : ∀ label, Call.addLabel label ∈ calls →
      (Call.opLabel, some label) ∈ (SizedModule.new pf version).trace pf calls)
    (few : (listing pf version calls).ids < 2 ^ 32 - 1)
    (supplied : ∀ n (inside : n < calls.length),
      Supplied ((SizedModule.new pf version).trace pf (calls.take n)) calls[n])
    (inside : (SizedModule.new pf version).Throughout pf SizedModule.Inside calls) :
    UsesDefined pf version calls ((listing pf version calls).all pf) := by
  have refined : ∀ before after, calls = before ++ after →
      (SizedModule.new pf version).trace pf before =
        Runs.trace (Listing.step pf) (Listing.new pf version) before ∧
      ((SizedModule.new pf version).run pf before).Follows
        ((Module.new pf version).run pf before) ∧
      Refines pf (fun _ => True) ((Module.new pf version).run pf before)
        (listing pf version before) := by
    rintro before after rfl
    obtain ⟨sized, follows⟩ := sized_follows pf version before
    obtain ⟨ideal, refines⟩ := run_refines_unpatched pf version
      fun c member => unpatched c (List.mem_append_left _ member)
    exact ⟨sized.trans ideal, follows, refines⟩
  obtain ⟨traces, follows, refines⟩ := refined calls [] (List.append_nil calls).symm
  have none := missed_of_inside pf version unpatched inside
  have given : ∀ before c after, calls = before ++ c :: after →
      Supplied (Runs.trace (Listing.step pf) (Listing.new pf version) before) c := by
    rintro before c after cut
    have here := supplied before.length (by simp [cut])
    rw [← (refined before (c :: after) cut).1]
    simpa [cut] using here
  have few32 : (listing pf version calls).ids < 2 ^ 32 := by omega
  rw [traces] at labelled
  constructor
  case words => exact (sized_listing pf version unpatched).2 none
  case declarations =>
    intro before d after cut
    have earlier := (refined before _ cut).2.1
    rw [(earlier.exec pf d.call).1]
    exact declaration_defined pf version labelled few32 given cut
  case globals =>
    intro before resultType storageClass initializer after cut
    obtain ⟨_, earlier, lists⟩ := refined before _ cut
    rw [earlier.bound, lists.bound]
    exact variable_defined pf version labelled few32 given cut
  case code =>
    intro before c after e bound cut emits
    obtain ⟨_, earlier, lists⟩ := refined before _ cut
    rw [earlier.codeEmission_eq pf] at emits
    obtain ⟨more, split, defined⟩ :=
      code_defined pf version labelled few32 given cut emits lists
    rw [traces]
    refine ⟨_, more, split, ?_, defined⟩
    have behind : ((Module.new pf version).run pf before).code.written = _ :=
      lists.sections .code trivial
    have index : (((SizedModule.new pf version).run pf before).streams .code).insertIndex =
        ((Module.new pf version).run pf before).code.insertIndex :=
      (earlier.streams .code).insertIndex
    obtain ⟨_, others⟩ := run_refines pf (· ≠ .code) version calls fun _ _ _ code => code rfl
    rw [follows.codeStart_eq pf none, others.codeStart_eq, index, ← Cursor.written_length,
      behind, List.flatMap_append, List.length_append, Nat.add_assoc]

theorem definitions_precede_uses_sine : ∃ first last : List Instruction,
    let is := first ++ (opExtInst ⟨2⟩ ⟨4⟩ (linuxX86.glslStd450 .sin) [⟨3⟩]).instruction
      linuxX86 4 :: last
    (((SizedModule.new linuxX86 0).run linuxX86 [.opLabel, .type (.typeFloat 32),
        .addLabel ⟨1⟩, .constant (.constant ⟨2⟩ (.float 0)), .glsl (.opSin ⟨2⟩ ⟨3⟩),
        .type (.typeFloat 32), .flow (.opBranch ⟨1⟩)]).assemble linuxX86).drop 5 =
      is.flatMap (Instruction.words linuxX86) ∧
    ∀ x ∈ ([2, 4, 3] : List U32), DefinedIn first is x := by
  have uses := definitions_precede_uses linuxX86 0 [.opLabel,
    .type (.typeFloat 32), .addLabel ⟨1⟩, .constant (.constant ⟨2⟩ (.float 0)),
    .glsl (.opSin ⟨2⟩ ⟨3⟩), .type (.typeFloat 32), .flow (.opBranch ⟨1⟩)] (by decide) (by
      intro label given
      have given : label = ⟨1⟩ := by simpa using given
      subst given
      exact List.mem_cons_self) (by decide) (by decide)
    (throughout_inside_of_fits linuxX86 0 (by decide))
  obtain ⟨first, last, split, _, defined⟩ := uses.code [.opLabel, .type (.typeFloat 32),
    .addLabel ⟨1⟩, .constant (.constant ⟨2⟩ (.float 0))] (.glsl (.opSin ⟨2⟩ ⟨3⟩)) _ _ _ rfl rfl
  refine ⟨first, last, split ▸ uses.words, ?_⟩
  intro x used
  rw [split] at defined
  rcases defined x used with inside | ⟨_, label⟩
  · exact inside
  · simp only [List.mem_cons, List.not_mem_nil, or_false] at used
    rcases used with rfl | rfl | rfl
    all_goals exact absurd label (by decide)

def atomicStoreRun : List Call := [.type (.typeInt 32 false),
  .constant (.constant ⟨1⟩ (.u32 7)), .addGlobalVariable ⟨1⟩ 0 none,
  .constant (.constant ⟨1⟩ (.u32 9)), .atomic (.opAtomicStore ⟨3⟩ ⟨2⟩ ⟨2⟩ ⟨4⟩), .flow .opReturn]

/-- The terminator grows the vector and clears the last operand of the store. -/
theorem stored_operand_lost :
    (∀ c ∈ atomicStoreRun, c.Asserts ∧ ¬ c.action.IsPatch) ∧
    (∀ label, Call.addLabel label ∈ atomicStoreRun → (Call.opLabel, some label) ∈
      (SizedModule.new linuxX86 0).trace linuxX86 atomicStoreRun) ∧
    (listing linuxX86 0 atomicStoreRun).ids < 2 ^ 32 - 1 ∧
    (∀ n (inside : n < atomicStoreRun.length), Supplied
      ((SizedModule.new linuxX86 0).trace linuxX86 (atomicStoreRun.take n)) atomicStoreRun[n]) ∧
    ¬ ∃ is, UsesDefined linuxX86 0 atomicStoreRun is := by
  refine ⟨by decide, ?_, by decide, by decide, ?_⟩
  · intro label given
    simp [atomicStoreRun] at given
  · rintro ⟨is, uses⟩
    obtain ⟨first, last, split, place, _⟩ := uses.code (atomicStoreRun.take 4)
      (.atomic (.opAtomicStore ⟨3⟩ ⟨2⟩ ⟨2⟩ ⟨4⟩)) [.flow .opReturn] _ _ rfl rfl
    have start : ((SizedModule.new linuxX86 0).run linuxX86 atomicStoreRun).codeStart linuxX86 +
        (((SizedModule.new linuxX86 0).run linuxX86 (atomicStoreRun.take 4)).streams
          .code).insertIndex = 24 := by decide
    have here : (first.flatMap (Instruction.words linuxX86)).length = 19 := by omega
    have words := congrArg (List.drop 19) uses.words
    rw [split, List.flatMap_append, ← here, List.drop_left, here] at words
    have lost : (List.drop 19 (List.drop 5 (((SizedModule.new linuxX86 0).run linuxX86
        atomicStoreRun).assemble linuxX86))).getD 5 0 = 0 := by decide
    rw [words] at lost
    exact absurd (show (4 : U32) = 0 from lost) (by decide)

end Sirit
