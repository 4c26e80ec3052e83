import Sirit.Emission
import Sirit.Projections

/- Calls on different sections that do not both draw from the id counter may be made in any
   order: a section is written by its own calls only, and read by no other. -/
namespace Sirit
open Projections
variable (pf : Platform)

inductive Resource where
  | capabilities
  | extensions
  | memoryModel
  | stream (sec : Section)
  | declarations
  | counter
  deriving DecidableEq

/-- A repeated declaration draws an id before it gives it back. Every helper of GLSL.std.450
    may be the one that imports it. -/
def Action.touches : Action → Resource → Bool
  | .emit sec _ _, .stream other => decide (other = sec)
  | .emit _ e _, .counter =>
      match e.head with
      | .op _ => false
      | .opId _ => true
  | .declare _, .declarations => true
  | .declare _, .counter => true
  | .deferPhi _ _, .stream other => decide (other = .code)
  | .deferPhi _ _, .counter => true
  | .glsl _, .stream other => decide (other = .extInstImports ∨ other = .code)
  | .glsl _, .counter => true
  | .addLabel _, .stream other => decide (other = .code)
  | .opLabel, .counter => true
  | .addExtension _, .extensions => true
  | .addCapability _, .capabilities => true
  | .setMemoryModel _ _, .memoryModel => true
  | .patch _, .stream other => decide (other = .code)
  | _, _ => false

def Call.touches (c : Call) (r : Resource) : Bool := c.action.touches r

def Call.draws (c : Call) : Bool := c.touches .counter

theorem Call.exists_touches (c : Call) : ∃ r, c.touches r = true := by
  unfold Call.touches
  cases c.action with
  | emit sec e returned => exact ⟨.stream sec, by simp [Action.touches]⟩
  | declare e => exact ⟨.declarations, rfl⟩
  | deferPhi resultType blocks => exact ⟨.counter, rfl⟩
  | glsl inst => exact ⟨.counter, rfl⟩
  | addLabel label => exact ⟨.stream .code, rfl⟩
  | opLabel => exact ⟨.counter, rfl⟩
  | addExtension extensionName => exact ⟨.extensions, rfl⟩
  | addCapability capability => exact ⟨.capabilities, rfl⟩
  | setMemoryModel addressingModel memoryModel => exact ⟨.memoryModel, rfl⟩
  | patch func => exact ⟨.stream .code, rfl⟩

def Module.onStream (sec : Section) (f : Stream → Stream) (m : Module) : Module :=
  m.setStream sec (f (m.stream sec))

/-- A change of what `Assemble` writes itself. No stream sees it. -/
def Module.onPreamble (f : List (List U8) → List (List U8)) (g : List U32 → List U32)
    (h : U32 × U32 → U32 × U32) (m : Module) : Module :=
  { m with
    extensions := f m.extensions
    capabilities := g m.capabilities
    addressingModel := (h (m.addressingModel, m.memoryModel)).1
    memoryModel := (h (m.addressingModel, m.memoryModel)).2 }

theorem Module.addExtension_eq (m : Module) (extensionName : List U8) :
    m.addExtension extensionName = m.onPreamble (Runs.addNew extensionName) id id := by
  unfold Module.addExtension Module.onPreamble Runs.addNew
  split <;> rfl

theorem Module.addCapability_eq (m : Module) (capability : U32) :
    m.addCapability capability = m.onPreamble id (Runs.addNew capability) id := by
  unfold Module.addCapability Module.onPreamble Runs.addNew
  split <;> rfl

/-- `change` and the action can be made in either order, and the answer is the same. -/
def Unseen (a : Action) (change : Module → Module) : Prop :=
  ∀ m : Module, (change m).perform pf a =
    ((m.perform pf a).1, change (m.perform pf a).2)

theorem Module.emit_onStream {sec other : Section} (differ : sec ≠ other) (e : Emission)
    (f : Stream → Stream) (m : Module) : (m.onStream sec f).emit pf other e =
      ((m.emit pf other e).1, (m.emit pf other e).2.onStream sec f) := by
  cases sec <;> cases other <;> first | rfl | exact absurd rfl differ

theorem unseen_glsl (change : Module → Module) (inst : GlslInst)
    (imported : ∀ m, (change m).glslStd450 = m.glslStd450)
    (imports : ∀ m id, { change m with glslStd450 := id } = change { m with glslStd450 := id })
    (emits : ∀ sec e m, sec = .extInstImports ∨ sec = .code →
      (change m).emit pf sec e = ((m.emit pf sec e).1, change (m.emit pf sec e).2)) :
    Unseen pf (.glsl inst) change := by
  intro m
  have fetched : (change m).getGLSLstd450 pf =
      ((m.getGLSLstd450 pf).1, change (m.getGLSLstd450 pf).2) := by
    simp only [Module.getGLSLstd450, imported]
    cases m.glslStd450 with
    | some id => rfl
    | none => simp only [emits .extInstImports _ _ (Or.inl rfl), imports]
  simp only [Module.perform, Module.opGlsl, fetched, emits .code _ _ (Or.inr rfl)]

theorem unseen_onStream {a : Action} {sec : Section} (apart : a.touches (.stream sec) = false)
    (f : Stream → Stream) : Unseen pf a (Module.onStream sec f) := by
  cases a with
  | emit other e returned =>
    intro m
    have differ : sec ≠ other := by simpa [Action.touches] using apart
    simp only [Module.perform, Module.emit_onStream pf differ]
  | glsl inst =>
    have differ : sec ≠ .extInstImports ∧ sec ≠ .code := by simpa [Action.touches] using apart
    apply unseen_glsl pf (Module.onStream sec f) inst
    · intro m
      cases sec <;> rfl
    · intro m id
      cases sec <;> rfl
    · intro other e m helper
      rcases helper with rfl | rfl
      · exact Module.emit_onStream pf differ.1 e f m
      · exact Module.emit_onStream pf differ.2 e f m
  | deferPhi _ _ | addLabel _ | patch _ =>
    intro m
    have differ : sec ≠ .code := by simpa [Action.touches] using apart
    cases sec <;> first | rfl | exact absurd rfl differ
  | addExtension extensionName =>
    intro m
    simp only [Module.perform, Module.addExtension_eq]
    cases sec <;> rfl
  | addCapability capability =>
    intro m
    simp only [Module.perform, Module.addCapability_eq]
    cases sec <;> rfl
  | declare _ | opLabel | setMemoryModel _ _ =>
    intro m
    cases sec <;> rfl

theorem unseen_onPreamble {a : Action} {f : List (List U8) → List (List U8)}
    {g : List U32 → List U32} {h : U32 × U32 → U32 × U32}
    (extensions : a.touches .extensions = true → f = id)
    (capabilities : a.touches .capabilities = true → g = id)
    (model : a.touches .memoryModel = true → h = id) :
    Unseen pf a (Module.onPreamble f g h) := by
  cases a with
  | emit sec e returned =>
    intro m
    cases sec <;> rfl
  | glsl inst =>
    apply unseen_glsl pf (Module.onPreamble f g h) inst (fun _ => rfl) (fun _ _ => rfl)
    intro sec e m _
    cases sec <;> rfl
  | addExtension extensionName =>
    intro m
    simp only [Module.perform, Module.addExtension_eq, extensions rfl]
    rfl
  | addCapability capability =>
    intro m
    simp only [Module.perform, Module.addCapability_eq, capabilities rfl]
    rfl
  | setMemoryModel addressingModel memoryModel =>
    intro m
    rw [model rfl]
    rfl
  | declare _ | deferPhi _ _ | addLabel _ | opLabel | patch _ => exact fun m => rfl

theorem unseen_patch {a : Action} (apart : a.touches (.stream .code) = false)
    (func : PhiFunc) : Unseen pf a fun m => (m.patchDeferredPhi func).2 := by
  intro m
  cases a with
  | emit sec e returned => cases sec <;> first | rfl | cases apart
  | addExtension extensionName =>
    simp only [Module.perform, Module.addExtension_eq]
    rfl
  | addCapability capability =>
    simp only [Module.perform, Module.addCapability_eq]
    rfl
  | deferPhi _ _ | glsl _ | addLabel _ | patch _ => cases apart
  | declare _ | opLabel | setMemoryModel _ _ => rfl

theorem Stream.emit_op {e : Emission} {o : Op} (bare : e.head = .op o) (s : Stream)
    (bound : U32) : (s.emit pf e bound).2 = ((s.emit pf e 0).2.1, bound) := by
  simp only [Stream.emit, bare, Stream.putHead]
  rfl

theorem Module.perform_unseen {b : Action} (quiet : b.touches .counter = false) :
    ∃ change : Module → Module, (∀ m : Module, (m.perform pf b).2 = change m) ∧
      ∀ a : Action, (∀ r, b.touches r = true → a.touches r = false) → Unseen pf a change := by
  cases b with
  | emit sec e returned =>
    cases head : e.head with
    | opId o => simp [Action.touches, head] at quiet
    | op o =>
      refine ⟨Module.onStream sec fun s => (s.emit pf e 0).2.1, ?_, ?_⟩
      · intro m
        have alone := (m.stream sec).emit_op pf head m.bound
        simp only [Module.perform, Module.emit, alone]
        cases sec <;> rfl
      · intro a apart
        exact unseen_onStream pf (apart (.stream sec) (by simp [Action.touches])) _
  | addLabel label =>
    refine ⟨Module.onStream .code fun s => ((s.reserve 2).putU32
      (makeWord0 (pf.op .opLabel) 2)).putU32 label.value, fun m => rfl, ?_⟩
    intro a apart
    exact unseen_onStream pf (apart (.stream .code) rfl) _
  | addExtension extensionName =>
    refine ⟨Module.onPreamble (Runs.addNew extensionName) id id, ?_, ?_⟩
    · exact fun m => m.addExtension_eq extensionName
    · intro a apart
      refine unseen_onPreamble pf (fun touched => ?_) (fun _ => rfl) fun _ => rfl
      exact absurd (apart .extensions rfl) (by simp [touched])
  | addCapability capability =>
    refine ⟨Module.onPreamble id (Runs.addNew capability) id, ?_, ?_⟩
    · exact fun m => m.addCapability_eq capability
    · intro a apart
      refine unseen_onPreamble pf (fun _ => rfl) (fun touched => ?_) fun _ => rfl
      exact absurd (apart .capabilities rfl) (by simp [touched])
  | setMemoryModel addressingModel memoryModel =>
    refine ⟨Module.onPreamble id id fun _ => (addressingModel, memoryModel), fun m => rfl, ?_⟩
    intro a apart
    refine unseen_onPreamble pf (fun _ => rfl) (fun _ => rfl) fun touched => ?_
    exact absurd (apart .memoryModel rfl) (by simp [touched])
  | patch func =>
    refine ⟨fun m => (m.patchDeferredPhi func).2, fun m => rfl, ?_⟩
    exact fun a apart => unseen_patch pf (apart (.stream .code) rfl) func
  | declare _ | deferPhi _ _ | glsl _ | opLabel => cases quiet

theorem calls_separable : Separable (Module.exec pf) Call.touches Call.draws where
  used := Call.exists_touches
  shared := by
    intro c d drawsC drawsD apart
    have other := apart .counter drawsC
    rw [Call.draws] at drawsD
    rw [drawsD] at other
    cases other
  commute := by
    intro c d m apart
    cases quiet : d.touches .counter with
    | false =>
      obtain ⟨change, changes, unseen⟩ := Module.perform_unseen pf quiet
      have moved := unseen c.action (independent_symm apart) m
      simp only [Module.exec, changes, moved]
    | true =>
      obtain ⟨change, changes, unseen⟩ :=
        Module.perform_unseen pf (independent_symm apart .counter quiet)
      have moved := unseen d.action apart m
      simp only [Module.exec, changes, moved]
  stable := by
    intro c d m drawsC apart
    obtain ⟨change, changes, unseen⟩ := Module.perform_unseen pf (apart .counter drawsC)
    have moved := unseen c.action (independent_symm apart) m
    simp only [Module.exec, changes, moved]

/-- Runs of the same calls, in the same order on every section and in the same order of
    those that draw ids, are assembled to the same words, and the ids they get are the
    same. -/
theorem interleaving_invisible (version : U32) {calls calls' : List Call}
    (same : ∀ r : Resource,
      calls.filter (fun c => c.touches r) = calls'.filter fun c => c.touches r) :
    ((Module.new pf version).run pf calls).assemble pf =
        ((Module.new pf version).run pf calls').assemble pf ∧
      ((Module.new pf version).trace pf calls).filter (fun entry => entry.1.draws) =
        ((Module.new pf version).trace pf calls').filter fun entry => entry.1.draws := by
  obtain ⟨states, answers⟩ :=
    run_eq_of_projections (calls_separable pf) same (Module.new pf version)
  exact ⟨congrArg (Module.assemble pf) states, answers⟩

theorem interleaving_invisible_moved :
    ((Module.new linuxX86 0).run linuxX86 [.addCapability 1, .type .typeVoid,
      .glsl (.opSin ⟨1⟩ ⟨2⟩), .debug (.name ⟨1⟩ [0x66]), .flow .opReturn]).assemble linuxX86 =
    ((Module.new linuxX86 0).run linuxX86 [.debug (.name ⟨1⟩ [0x66]), .type .typeVoid,
      .glsl (.opSin ⟨1⟩ ⟨2⟩), .flow .opReturn, .addCapability 1]).assemble linuxX86 := by
  refine (interleaving_invisible linuxX86 0 ?_).1
  intro r
  cases r with
  | stream sec => cases sec <;> rfl
  | _ => rfl

end Sirit
