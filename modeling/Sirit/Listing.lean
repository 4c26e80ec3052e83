import Mathlib.Logic.Function.Basic
import Sirit.Declare
import Sirit.Interning

/- What a module is for, without its buffers: distinct capabilities and extensions, one
   memory model, interned declarations, and a list of instructions for every other
   section. The id counter does not wrap, and patches are left out. -/
namespace Sirit
open Interning
variable (pf : Platform)

/-- `ids` ids are allocated so far; `labels` are those `OpLabel` handed out. -/
structure Listing where
  version : U32
  ids : Nat
  labels : List U32
  capabilities : List U32
  extensions : List (List U8)
  addressingModel : U32
  memoryModel : U32
  glslStd450 : Option Id
  declarations : Table DeclKey U32
  instructions : Section → List Instruction

def Listing.new (version : U32) : Listing where
  version := version
  ids := 0
  labels := []
  capabilities := []
  extensions := []
  addressingModel := pf.logical
  memoryModel := pf.glsl450
  glslStd450 := none
  declarations := Table.empty
  instructions := fun _ => []

def Listing.bound (l : Listing) : U32 := BitVec.ofNat 32 l.ids

def Emission.results (e : Emission) : Nat :=
  match e.head with
  | .op _ => 0
  | .opId _ => 1

def Listing.emit (sec : Section) (e : Emission) (l : Listing) : Id × Listing :=
  (⟨e.nextBound l.bound⟩, { l with
    ids := l.ids + e.results
    instructions := Function.update l.instructions sec
      (l.instructions sec ++ [e.instruction pf l.bound]) })

def Listing.declare (e : Declaration) (l : Listing) : Id × Listing :=
  let r := l.declarations.intern (e.key pf) (l.bound + 1)
  (⟨r.1⟩, { l with
    ids := if (l.declarations.find (e.key pf)).isSome then l.ids else l.ids + 1
    declarations := r.2 })

def labelInstruction (label : Id) : Instruction := ⟨.opLabel, 0, none, [label.value]⟩

def Listing.addLabel (label : Id) (l : Listing) : Listing :=
  { l with
    instructions := Function.update l.instructions Section.code
      (l.instructions .code ++ [labelInstruction label]) }

def Listing.opLabel (l : Listing) : Id × Listing :=
  (⟨l.bound + 1⟩, { l with ids := l.ids + 1, labels := l.labels ++ [l.bound + 1] })

def Listing.getGLSLstd450 (l : Listing) : Id × Listing :=
  match l.glslStd450 with
  | some id => (id, l)
  | none =>
      let r := l.emit pf .extInstImports glslStd450Import
      (r.1, { r.2 with glslStd450 := some r.1 })

def Listing.opGlsl (inst : GlslInst) (l : Listing) : Id × Listing :=
  let r := l.getGLSLstd450 pf
  r.2.emit pf .code (opExtInst inst.resultType r.1 (pf.glslStd450 inst.opcode) inst.operands)

def Listing.perform (a : Action) (l : Listing) : Option Id × Listing :=
  match a with
  | .emit sec e returned => (returned.value (l.emit pf sec e).1, (l.emit pf sec e).2)
  | .declare e => (some (l.declare pf e).1, (l.declare pf e).2)
  | .deferPhi resultType blocks =>
      (some (l.emit pf .code (Sirit.deferredOpPhi resultType blocks)).1,
        (l.emit pf .code (Sirit.deferredOpPhi resultType blocks)).2)
  | .glsl inst => (some (l.opGlsl pf inst).1, (l.opGlsl pf inst).2)
  | .addLabel label => (some label, l.addLabel label)
  | .opLabel => (some l.opLabel.1, l.opLabel.2)
  | .addExtension extensionName => (none, { l with
      extensions := Runs.addNew extensionName l.extensions })
  | .addCapability capability => (none, { l with
      capabilities := Runs.addNew capability l.capabilities })
  | .setMemoryModel addressingModel memoryModel => (none, { l with
      addressingModel := addressingModel
      memoryModel := memoryModel })
  | .patch _ => (none, l)

def Listing.step (c : Call) (l : Listing) : Option Id × Listing := l.perform pf c.action

def listing (version : U32) (calls : List Call) : Listing :=
  Runs.run (Listing.step pf) (Listing.new pf version) calls

def capabilityInstruction (capability : U32) : Instruction :=
  ⟨.opCapability, 0, none, [capability]⟩

def extensionInstruction (extensionName : List U8) : Instruction :=
  ⟨.opExtension, 0, none, stringWords pf.charSigned extensionName⟩

def memoryModelInstruction (addressingModel memoryModel : U32) : Instruction :=
  ⟨.opMemoryModel, 0, none, [addressingModel, memoryModel]⟩

def Listing.declarationInstructions (l : Listing) : List Instruction :=
  l.declarations.entries.map fun e => e.1.instruction e.2

def Listing.preamble (l : Listing) : List Instruction :=
  (pf.capabilityOrder l.capabilities).map capabilityInstruction ++
  (pf.extensionOrder l.extensions).map (extensionInstruction pf) ++
  l.instructions .extInstImports ++
  [memoryModelInstruction l.addressingModel l.memoryModel] ++
  l.instructions .entryPoints ++
  l.instructions .executionModes ++
  l.instructions .debug ++
  l.instructions .annotations

def Listing.globals (l : Listing) : List Instruction :=
  l.declarationInstructions ++ l.instructions .globalVariables

def Listing.all (l : Listing) : List Instruction :=
  l.preamble pf ++ l.globals ++ l.instructions .code

def Listing.Short (l : Listing) : Prop := ∀ i ∈ l.all pf, i.width ≤ 65535

instance decidableListingShort (l : Listing) : Decidable (l.Short pf) :=
  inferInstanceAs (Decidable (∀ i ∈ _, _ ≤ _))

end Sirit
