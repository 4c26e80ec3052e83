import Sirit.Chaining
import Sirit.Deduplication

/- The map of declarations as the hash table it is, with the hash of the source. The hash
   is an exclusive or, which does not see the order of the words; no run shows it. -/
namespace Sirit
open Chaining Interning VectorCursor

/-- What the standard library decides: the hash of a size and that of a word, how many
    chains a table starts with, and how many it has for so many elements. -/
structure StandardHash (w : Nat) where
  size : Nat → BitVec w
  word : U32 → BitVec w
  chains : Nat
  positive : 0 < chains
  grow : Nat → Nat → Nat

def StandardHash.hashVector {w : Nat} (std : StandardHash w) (vector : List U32) : BitVec w :=
  vector.foldl (fun hash value => hash ^^^ std.word value) (std.size vector.length)

def StandardHash.hash {w : Nat} (std : StandardHash w) (vector : List U32) : Nat :=
  (std.hashVector vector).toNat

variable {w : Nat} {std : StandardHash w} (pf : Platform)

theorem StandardHash.hashVector_perm (std : StandardHash w) {first second : List U32}
    (reordered : first.Perm second) : std.hashVector first = std.hashVector second := by
  have commutes : RightCommutative fun hash value => hash ^^^ std.word value := by
    constructor
    intro hash value other
    simp only [BitVec.xor_assoc]
    rw [BitVec.xor_comm (std.word value)]
  rw [StandardHash.hashVector, StandardHash.hashVector, reordered.length_eq]
  exact reordered.foldl_eq _

structure HashedDeclarations (std : StandardHash w) where
  stream : Stream
  existingDeclarations : Chains std.hash U32
  idIndex : Nat

def HashedDeclarations.new (std : StandardHash w) : HashedDeclarations std :=
  ⟨Stream.new, Chains.empty std.chains std.positive, 0⟩

def HashedDeclarations.putOpId (op : OpId) (d : HashedDeclarations std) (bound : U32) :
    HashedDeclarations std × U32 :=
  let r := d.stream.putOpId pf op bound
  ({ d with idIndex := if op.resultType.value ≠ 0 then 2 else 1, stream := r.1 }, r.2)

def HashedDeclarations.endOp (bound : U32) (d : HashedDeclarations std) :
    Id × HashedDeclarations std × U32 :=
  let s := d.stream
  let declarations := (s.words.drop s.opIndex).take (s.insertIndex - s.opIndex)
  let id := declarations.getD d.idIndex 0
  let declarations := declarations.set d.idIndex 0
  let r := d.existingDeclarations.emplace std.grow declarations id
  if r.1.2 then
    let t := s.endOp bound
    (t.1, { d with stream := t.2, existingDeclarations := r.2 }, bound)
  else
    (⟨r.1.1⟩, { d with
      stream := { s with
        toCursor := s.toCursor.rewind s.opIndex s.opened
        opened := Nat.le_refl _ }
      existingDeclarations := r.2 }, bound - 1)

def HashedDeclarations.declare (e : Declaration) (d : HashedDeclarations std) (bound : U32) :
    Id × HashedDeclarations std × U32 :=
  let d := { d with stream := d.stream.reserve e.reserved }
  let r := d.putOpId pf e.opId bound
  let d := { r.1 with stream := e.operands.foldl (Stream.insert pf) r.1.stream }
  d.endOp r.2

/-- The module with the hash table. The list of declarations in `rest` is not used. -/
structure HashedModule (std : StandardHash w) where
  rest : Module
  declarations : HashedDeclarations std

def HashedModule.new (std : StandardHash w) (version : U32) : HashedModule std :=
  ⟨Module.new pf version, HashedDeclarations.new std⟩

def HashedModule.perform (a : Action) (m : HashedModule std) : Option Id × HashedModule std :=
  match a with
  | .declare e =>
      let r := m.declarations.declare pf e m.rest.bound
      (some r.1, ⟨{ m.rest with bound := r.2.2 }, r.2.1⟩)
  | a =>
      let r := m.rest.perform pf a
      (r.1, { m with rest := r.2 })

def HashedModule.exec (c : Call) (m : HashedModule std) : Option Id × HashedModule std :=
  m.perform pf c.action

def HashedModule.run (m : HashedModule std) (calls : List Call) : HashedModule std :=
  Runs.run (HashedModule.exec pf) m calls

def HashedModule.trace (m : HashedModule std) (calls : List Call) : List (Call × Option Id) :=
  Runs.trace (HashedModule.exec pf) m calls

def HashedModule.assemble (m : HashedModule std) : List U32 :=
  ({ m.rest with declarations :=
    { m.rest.declarations with stream := m.declarations.stream } } : Module).assemble pf

structure HashedDeclarations.Agrees (d : HashedDeclarations std) (d' : Declarations) :
    Prop where
  stream : d'.stream = d.stream
  idIndex : d'.idIndex = d.idIndex
  answers : d.existingDeclarations.Answers d'.existingDeclarations

theorem HashedDeclarations.agrees_new (std : StandardHash w) :
    (HashedDeclarations.new std).Agrees Declarations.new :=
  ⟨rfl, rfl, Chains.answers_empty std.chains std.positive⟩

theorem HashedDeclarations.Agrees.endOp {d : HashedDeclarations std} {d' : Declarations}
    (agrees : d.Agrees d') (bound : U32) :
    (d'.endOp bound).1 = (d.endOp bound).1 ∧ (d'.endOp bound).2.2 = (d.endOp bound).2.2 ∧
      (d.endOp bound).2.1.Agrees (d'.endOp bound).2.1 := by
  obtain ⟨s, entries, idIndex⟩ := d'
  obtain ⟨same, index, answers⟩ := agrees
  simp only at same index answers
  subst same index
  simp only [Declarations.endOp, HashedDeclarations.endOp]
  generalize ((d.stream.words.drop d.stream.opIndex).take
    (d.stream.insertIndex - d.stream.opIndex)) = declarations
  rw [← answers]
  cases found : d.existingDeclarations.find (declarations.set d.idIndex 0) with
  | some entry =>
    rw [Chains.emplace_known std.grow found]
    exact ⟨rfl, rfl, rfl, rfl, answers⟩
  | none =>
    obtain ⟨inserted, after⟩ := Chains.emplace_new std.grow answers found
      (declarations.getD d.idIndex 0)
    simp only [inserted, if_true]
    exact ⟨trivial, trivial, rfl, rfl, after⟩

theorem HashedDeclarations.Agrees.declare {d : HashedDeclarations std} {d' : Declarations}
    (agrees : d.Agrees d') (e : Declaration) (bound : U32) :
    (d'.declare pf e bound).1 = (d.declare pf e bound).1 ∧
      (d'.declare pf e bound).2.2 = (d.declare pf e bound).2.2 ∧
      (d.declare pf e bound).2.1.Agrees (d'.declare pf e bound).2.1 := by
  obtain ⟨s, entries, idIndex⟩ := d'
  obtain ⟨same, index, answers⟩ := agrees
  simp only at same index answers
  subst same index
  exact HashedDeclarations.Agrees.endOp ⟨rfl, rfl, answers⟩ _

structure HashedModule.Models (m : HashedModule std) (m' : Module) : Prop where
  rest : m' = { m.rest with declarations := m'.declarations }
  agrees : m.declarations.Agrees m'.declarations

theorem HashedModule.models_new (std : StandardHash w) (version : U32) :
    (HashedModule.new pf std version).Models (Module.new pf version) :=
  ⟨rfl, HashedDeclarations.agrees_new std⟩

theorem HashedModule.Models.exec {m : HashedModule std} {m' : Module} (models : m.Models m')
    (c : Call) : (m.exec pf c).1 = (m'.exec pf c).1 ∧
      (m.exec pf c).2.Models (m'.exec pf c).2 := by
  obtain ⟨d, rfl⟩ : ∃ d, m' = { m.rest with declarations := d } := ⟨_, models.rest⟩
  have agrees : m.declarations.Agrees d := models.agrees
  unfold HashedModule.exec Module.exec
  by_cases declares : ∃ e, c.action = .declare e
  · obtain ⟨e, action⟩ := declares
    obtain ⟨id, bound, after⟩ := agrees.declare pf e m.rest.bound
    rw [action]
    simp only [HashedModule.perform, Module.perform, Module.declare]
    refine ⟨congrArg some id.symm, ?_, after⟩
    simp only [bound]
  · have other : ∀ e, c.action ≠ .declare e := fun e action => declares ⟨e, action⟩
    have plain : m.perform pf c.action =
        ((m.rest.perform pf c.action).1, { m with rest := (m.rest.perform pf c.action).2 }) := by
      unfold HashedModule.perform
      split
      · rename_i e action
        exact absurd action (other e)
      · rfl
    rw [plain, m.rest.perform_withDeclarations pf other d]
    exact ⟨rfl, rfl, agrees⟩

theorem HashedModule.Models.assemble_eq {m : HashedModule std} {m' : Module}
    (models : m.Models m') : m.assemble pf = m'.assemble pf := by
  rw [models.rest]
  simp only [HashedModule.assemble, Module.assemble, models.agrees.stream]

/-- Reordering the words of a declaration never changes its hash. Still, whatever the
    standard library hashes words and sizes to and however it grows the table, every run
    returns the ids and assembles the words it would with a list of the declarations. -/
theorem hashed_declarations (std : StandardHash w) (version : U32) (calls : List Call) :
    (∀ first second : List U32, first.Perm second → std.hash first = std.hash second) ∧
    (HashedModule.new pf std version).trace pf calls =
      (Module.new pf version).trace pf calls ∧
    ((HashedModule.new pf std version).run pf calls).assemble pf =
      ((Module.new pf version).run pf calls).assemble pf := by
  have always : Runs.Throughout (HashedModule.exec pf) (fun _ _ => True)
      (HashedModule.new pf std version) calls :=
    Runs.throughout_of_forall fun _ _ _ => trivial
  obtain ⟨traces, models⟩ := Runs.simulation
    (fun m m' c _ (models : m.Models m') => models.exec pf c)
    (HashedModule.models_new pf std version) always
  refine ⟨?_, traces, models.assemble_eq pf⟩
  intro first second reordered
  rw [StandardHash.hash, StandardHash.hash, std.hashVector_perm reordered]

end Sirit
