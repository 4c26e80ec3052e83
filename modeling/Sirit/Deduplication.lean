import Mathlib.Data.List.Induction
import Sirit.Ids

/- Deduplication over whole runs: two declarations get one id exactly when they are the
   same, and a repeated declaration leaves the module as if it had not been made. -/
namespace Sirit
open Interning VectorCursor
variable (pf : Platform)

theorem Listing.step_declarations (l : Listing) {c : Call}
    (other : ∀ e, c.action ≠ .declare e) : (l.step pf c).2.declarations = l.declarations := by
  unfold Listing.step
  cases action : c.action with
  | declare e => exact absurd action (other e)
  | glsl inst =>
    simp only [Listing.perform, Listing.opGlsl, Listing.getGLSLstd450]
    split <;> rfl
  | _ => rfl

theorem Listing.declarations_extends (l : Listing) (c : Call) :
    l.declarations.Extends (l.step pf c).2.declarations := by
  by_cases declares : ∃ e, c.action = .declare e
  · obtain ⟨e, action⟩ := declares
    rw [Listing.step, action]
    exact l.declarations.intern_extends (e.key pf) (l.bound + 1)
  · rw [l.step_declarations pf fun e action => declares ⟨e, action⟩]
    exact Table.extends_refl _

theorem run_declarations_extends (l : Listing) (calls : List Call) :
    l.declarations.Extends (Runs.run (Listing.step pf) l calls).declarations := by
  apply Runs.invariant_run (I := fun u : Listing => l.declarations.Extends u.declarations)
  · exact fun u c _ grown => Table.extends_trans grown (u.declarations_extends pf c)
  · exact Table.extends_refl _

theorem Listing.declared_ids_nodup {l : Listing} (dense : l.Dense) (few : l.ids < 2 ^ 32) :
    (l.declarations.entries.map Prod.snd).Nodup := by
  have listed : l.declarationInstructions.filterMap Instruction.result =
      l.declarations.entries.map Prod.snd := by
    rw [Listing.declarationInstructions, List.filterMap_map, ← List.filterMap_eq_map]
    rfl
  have part : (l.declarations.entries.map Prod.snd).Sublist l.results := by
    rw [← listed]
    apply List.Sublist.filterMap
    refine List.Sublist.trans ?_ (List.sublist_append_left _ _)
    exact (List.sublist_append_right _ _).trans (List.sublist_append_left _ _)
  exact (part.nodup (List.nodup_append.mp (Listing.nodup_ids dense few).1).1)

theorem exec_declaration (version : U32) (calls : List Call) (d : DeclarationCall) :
    (((Module.new pf version).run pf calls).exec pf d.call).1 =
      some ⟨((listing pf version calls).declarations.intern (d.declaration.key pf)
        ((listing pf version calls).bound + 1)).1⟩ := by
  obtain ⟨_, refines⟩ := run_refines pf (fun _ => False) version calls
    (fun _ _ _ none => none)
  have answer := (refines.perform d.call.action fun _ none => none).1
  rw [Module.exec, answer, d.action_call]
  rfl

theorem listing_append (version : U32) (before after : List Call) :
    listing pf version (before ++ after) =
      Runs.run (Listing.step pf) (listing pf version before) after := Runs.run_append before after

theorem listing_ids_append (version : U32) (before after : List Call) :
    (listing pf version before).ids ≤ (listing pf version (before ++ after)).ids := by
  rw [listing_append]
  exact Runs.monotone_run (Listing.ids_mono pf) after

theorem Call.exists_declarationCall {c : Call} {e : Declaration} (action : c.action = .declare e) :
    ∃ d : DeclarationCall, c = d.call ∧ e = d.declaration := by
  cases c with
  | type c => exact ⟨.type c, rfl, (Action.declare.inj action).symm⟩
  | constant c => exact ⟨.constant c, rfl, (Action.declare.inj action).symm⟩
  | _ => cases action

theorem declaration_answered (version : U32) (before after : List Call) (d : DeclarationCall) :
    ∃ id, (((Module.new pf version).run pf before).exec pf d.call).1 = some id ∧
      (d.declaration.key pf, id.value) ∈
        (listing pf version (before ++ d.call :: after)).declarations.entries := by
  refine ⟨_, exec_declaration pf version before d, ?_⟩
  rw [listing_append, Runs.run_cons, Listing.step, d.action_call]
  apply Table.extends_mem (run_declarations_extends pf _ after)
  exact Table.intern_mem _ _ _

theorem declaration_made {version : U32} {calls : List Call} {e : DeclKey × U32}
    (member : e ∈ (listing pf version calls).declarations.entries) :
    ∃ before d after, calls = before ++ DeclarationCall.call d :: after ∧
      e.1 = d.declaration.key pf ∧
      (((Module.new pf version).run pf before).exec pf d.call).1 = some ⟨e.2⟩ := by
  induction calls using List.reverseRecOn with
  | nil => exact absurd member List.not_mem_nil
  | append_singleton calls c ih =>
    have earlier : e ∈ (listing pf version calls).declarations.entries →
        ∃ before d after, calls ++ [c] = before ++ DeclarationCall.call d :: after ∧
          e.1 = d.declaration.key pf ∧
          (((Module.new pf version).run pf before).exec pf d.call).1 = some ⟨e.2⟩ := by
      intro old
      obtain ⟨before, d, after, cut, made⟩ := ih old
      exact ⟨before, d, after ++ [c], by simp [cut], made⟩
    rw [listing_snoc] at member
    by_cases declares : ∃ e, c.action = .declare e
    · obtain ⟨declaration, action⟩ := declares
      obtain ⟨d, rfl, rfl⟩ := Call.exists_declarationCall action
      have answer := exec_declaration pf version calls d
      rw [Listing.step, action] at member
      simp only [Listing.perform, Listing.declare] at member
      cases found : (listing pf version calls).declarations.find (d.declaration.key pf) with
      | some id =>
        rw [Table.intern_known found] at member
        exact earlier member
      | none =>
        rw [Table.intern_new found] at member answer
        rcases List.mem_append.mp member with old | new
        · exact earlier old
        · obtain rfl := List.mem_singleton.mp new
          exact ⟨calls, d, [], rfl, rfl, answer⟩
    · rw [Listing.step_declarations pf _ fun e action => declares ⟨e, action⟩] at member
      exact earlier member

/-- In every run, two declarations return the same id exactly when opcode, result type and
    operand words are the same; and the declarations section lists what the declarations of
    the run asked for, each once, with the id they returned. -/
theorem declarations_same_id_iff (version : U32) (before between after : List Call)
    (d d' : DeclarationCall)
    (few : (listing pf version (before ++ d.call :: between ++ d'.call :: after)).ids <
      2 ^ 32 - 1) :
    ((((Module.new pf version).run pf before).exec pf d.call).1 =
        (((Module.new pf version).run pf (before ++ d.call :: between)).exec pf d'.call).1 ↔
      d.declaration.key pf = d'.declaration.key pf) ∧
    ∃ entries : List (DeclKey × U32), (entries.map Prod.fst).Nodup ∧
      ((Module.new pf version).run pf
          (before ++ d.call :: between ++ d'.call :: after)).declarations.stream.written =
        (entries.flatMap fun e => (e.1.instruction e.2).words pf) ∧
      ∀ k id, (k, id) ∈ entries ↔ ∃ made e rest,
        before ++ d.call :: between ++ d'.call :: after =
          made ++ DeclarationCall.call e :: rest ∧
        k = e.declaration.key pf ∧
        (((Module.new pf version).run pf made).exec pf e.call).1 = some ⟨id⟩ := by
  obtain ⟨l, hl⟩ : ∃ l, l = listing pf version before := ⟨_, rfl⟩
  obtain ⟨u, hu⟩ : ∃ u, u = listing pf version (before ++ d.call :: between) := ⟨_, rfl⟩
  refine ⟨?_, ?_⟩
  · have grown : (l.declarations.intern (d.declaration.key pf) (l.bound + 1)).2.Extends
        u.declarations := by
      have later := run_declarations_extends pf (l.step pf d.call).2 between
      rw [hu, listing_append, ← hl, Runs.run_cons]
      rw [Listing.step, d.action_call] at later ⊢
      exact later
    have unique : ((u.declarations.intern (d'.declaration.key pf)
        (u.bound + 1)).2.entries.map Prod.snd).Nodup := by
      have dense := Listing.dense_step pf (hu ▸ listing_dense pf version _) d'.call
      have within := listing_ids_append pf version
        (before ++ d.call :: between ++ [d'.call]) after
      rw [List.append_assoc _ [d'.call], List.singleton_append, listing_append, ← hu] at within
      have nodup := Listing.declared_ids_nodup dense (by
        have last : (u.step pf d'.call).2.ids ≤ _ := within
        omega)
      rw [Listing.step, d'.action_call] at nodup
      exact nodup
    rw [exec_declaration, exec_declaration, ← hl, ← hu, Option.some.injEq, Id.mk.injEq]
    exact Table.intern_twice_iff grown unique
  · obtain ⟨calls, listed⟩ : ∃ calls, calls = before ++ d.call :: between ++ d'.call :: after :=
      ⟨_, rfl⟩
    rw [← listed]
    obtain ⟨_, refines⟩ := run_refines pf (fun _ => False) version calls
      (fun _ _ _ none => none)
    refine ⟨_, (listing pf version calls).declarations.distinct, refines.declared.trans ?_, ?_⟩
    · rw [Listing.declarationInstructions, List.flatMap_map]
    · intro k id
      constructor
      · exact fun member => declaration_made pf member
      · rintro ⟨made, e, rest, cut, rfl, answer⟩
        obtain ⟨found, answer', member⟩ := declaration_answered pf version made rest e
        obtain rfl := Option.some.inj (answer.symm.trans answer')
        rwa [cut]

theorem declarations_same_id_void :
    (((Module.new linuxX86 0).exec linuxX86 (.type .typeVoid)).1 =
      (((Module.new linuxX86 0).run linuxX86 [.type .typeVoid, .opLabel,
        .type (.typeFunction ⟨1⟩ [])]).exec linuxX86 (.type .typeVoid)).1) :=
  (declarations_same_id_iff linuxX86 0 [] [.opLabel, .type (.typeFunction ⟨1⟩ [])] []
    (.type .typeVoid) (.type .typeVoid) (by decide)).1.mpr rfl

def Call.declared (c : Call) : Option DeclKey :=
  match c.action with
  | .declare e => some (e.key pf)
  | _ => none

/-- Everything but what the buffer of declarations holds past its end. -/
structure Alike (m m' : Module) : Prop where
  rest : m' = { m with declarations := m'.declarations }
  written : m'.declarations.stream.written = m.declarations.stream.written
  existing : m'.declarations.existingDeclarations = m.declarations.existingDeclarations

theorem Alike.refl (m : Module) : Alike m m := ⟨rfl, rfl, rfl⟩

theorem Alike.assemble_eq {m m' : Module} (alike : Alike m m') :
    m'.assemble pf = m.assemble pf := by
  rw [alike.rest]
  simp only [Module.assemble, alike.written]

theorem Module.emit_withDeclarations (sec : Section) (e : Emission) (m : Module)
    (d : Declarations) : ({ m with declarations := d } : Module).emit pf sec e =
      ((m.emit pf sec e).1, { (m.emit pf sec e).2 with declarations := d }) := by
  cases sec <;> rfl

theorem Module.getGLSLstd450_withDeclarations (m : Module) (d : Declarations) :
    ({ m with declarations := d } : Module).getGLSLstd450 pf =
      ((m.getGLSLstd450 pf).1, { (m.getGLSLstd450 pf).2 with declarations := d }) := by
  obtain ⟨_, _, _, _, imported, _⟩ := m
  cases imported with
  | none => rfl
  | some id => rfl

theorem Module.perform_withDeclarations {a : Action} (other : ∀ e, a ≠ .declare e) (m : Module)
    (d : Declarations) :
    ({ m with declarations := d } : Module).perform pf a =
      ((m.perform pf a).1, { (m.perform pf a).2 with declarations := d }) := by
  cases a with
  | emit sec e returned => simp only [Module.perform, Module.emit_withDeclarations]
  | declare e => exact absurd rfl (other e)
  | glsl inst =>
    simp only [Module.perform, Module.opGlsl, Module.getGLSLstd450_withDeclarations,
      Module.emit_withDeclarations]
  | addExtension extensionName =>
    simp only [Module.perform, Module.addExtension]
    split <;> rfl
  | addCapability capability =>
    simp only [Module.perform, Module.addCapability]
    split <;> rfl
  | _ => rfl

theorem Module.perform_declarations {a : Action} (other : ∀ e, a ≠ .declare e) (m : Module) :
    (m.perform pf a).2.declarations = m.declarations := by
  have kept := m.perform_withDeclarations pf other m.declarations
  exact congrArg (fun r => r.2.declarations) kept

section Step
variable {pf} {m m' : Module} (alike : Alike m m')
include alike

theorem Alike.perform {a : Action} (other : ∀ e, a ≠ .declare e) :
    (m'.perform pf a).1 = (m.perform pf a).1 ∧
      Alike (m.perform pf a).2 (m'.perform pf a).2 := by
  have moved := m.perform_withDeclarations pf other m'.declarations
  rw [← alike.rest] at moved
  have same := m.perform_declarations pf other
  rw [moved]
  exact ⟨rfl, rfl, same ▸ alike.written, same ▸ alike.existing⟩

theorem Alike.declare (e : Declaration) :
    (m'.declare pf e).1 = (m.declare pf e).1 ∧
      Alike (m.declare pf e).2 (m'.declare pf e).2 := by
  obtain ⟨d, rfl⟩ : ∃ d, m' = { m with declarations := d } := ⟨_, alike.rest⟩
  have existing : d.existingDeclarations = m.declarations.existingDeclarations := alike.existing
  have written : d.stream.written = m.declarations.stream.written := alike.written
  cases found : m.declarations.existingDeclarations.lookup ((e.key pf).words pf) with
  | some entry =>
    have found' := existing.symm ▸ found
    obtain ⟨id, bound⟩ := Declarations.declare_known_id m.bound found
    obtain ⟨id', bound'⟩ := Declarations.declare_known_id m.bound found'
    refine ⟨id'.trans id.symm, ?_, ?_, ?_⟩
    · simp only [Module.declare, bound, bound']
    · exact (Declarations.declare_known_written m.bound found').trans
        (written.trans (Declarations.declare_known_written m.bound found).symm)
    · exact (Declarations.declare_known_existing m.bound found').trans
        (existing.trans (Declarations.declare_known_existing m.bound found).symm)
  | none =>
    have absent' := existing.symm ▸ found
    obtain ⟨id, bound⟩ := Declarations.declare_new_id m.bound found
    obtain ⟨id', bound'⟩ := Declarations.declare_new_id m.bound absent'
    refine ⟨id'.trans id.symm, ?_, ?_, ?_⟩
    · simp only [Module.declare, bound, bound']
    · simp only [Module.declare, Declarations.declare_new_written m.bound found,
        Declarations.declare_new_written m.bound absent', written]
    · simp only [Module.declare, Declarations.declare_new_existing m.bound found,
        Declarations.declare_new_existing m.bound absent', existing]

theorem Alike.declare_repeat {e : Declaration} {entry : U32}
    (found : m.declarations.existingDeclarations.lookup ((e.key pf).words pf) = some entry) :
    Alike (m.declare pf e).2 m' := by
  obtain ⟨_, bound⟩ := Declarations.declare_known_id m.bound found
  refine ⟨?_, ?_, ?_⟩
  · simp only [Module.declare, bound]
    exact alike.rest
  · exact alike.written.trans (Declarations.declare_known_written m.bound found).symm
  · exact alike.existing.trans (Declarations.declare_known_existing m.bound found).symm

theorem Alike.exec (c : Call) :
    (m'.exec pf c).1 = (m.exec pf c).1 ∧ Alike (m.exec pf c).2 (m'.exec pf c).2 := by
  unfold Module.exec
  cases action : c.action with
  | declare e =>
    obtain ⟨id, after⟩ := alike.declare e
    exact ⟨congrArg some id, after⟩
  | _ =>
    refine alike.perform ?_
    intro e same
    cases same

end Step

def Module.Knows (m : Module) (k : DeclKey) (id : Id) : Prop :=
  m.declarations.existingDeclarations.lookup (k.words pf) = some id.value

theorem Module.declare_knows (m : Module) (e : Declaration) :
    (m.declare pf e).2.Knows pf (e.key pf) (m.declare pf e).1 := by
  cases found : m.declarations.existingDeclarations.lookup ((e.key pf).words pf) with
  | some entry =>
    simp only [Module.Knows, Module.declare, Declarations.declare_known_existing m.bound found,
      (Declarations.declare_known_id m.bound found).1, found]
  | none =>
    simp only [Module.Knows, Module.declare, Declarations.declare_new_existing m.bound found,
      (Declarations.declare_new_id m.bound found).1, List.lookup_append, found, Option.none_or,
      List.lookup_cons, beq_self_eq_true]

theorem Module.knows_declare {m : Module} {k : DeclKey} {id : Id} (known : m.Knows pf k id)
    (e : Declaration) : (m.declare pf e).2.Knows pf k id := by
  unfold Module.Knows at known
  cases found : m.declarations.existingDeclarations.lookup ((e.key pf).words pf) with
  | some entry =>
    simp only [Module.Knows, Module.declare, Declarations.declare_known_existing m.bound found,
      known]
  | none =>
    simp only [Module.Knows, Module.declare, Declarations.declare_new_existing m.bound found,
      List.lookup_append, known, Option.some_or]

theorem Module.knows_exec {m : Module} {k : DeclKey} {id : Id} (known : m.Knows pf k id)
    (c : Call) : (m.exec pf c).2.Knows pf k id := by
  unfold Module.exec
  cases action : c.action with
  | declare e => exact Module.knows_declare pf known e
  | _ =>
    have same := m.perform_declarations pf (a := c.action) (by
      intro e declares
      rw [action] at declares
      cases declares)
    rw [action] at same
    unfold Module.Knows
    rw [same]
    exact known

theorem Module.declare_of_knows {m : Module} {e : Declaration} {id : Id}
    (known : m.Knows pf (e.key pf) id) : (m.declare pf e).1 = id :=
  (Declarations.declare_known_id m.bound known).1

theorem Call.declared_eq_some {c : Call} {k : DeclKey} (declares : c.declared pf = some k) :
    ∃ e, c.action = .declare e ∧ e.key pf = k := by
  unfold Call.declared at declares
  split at declares
  · rename_i e action
    exact ⟨e, action, Option.some.inj declares⟩
  · cases declares

/-- Deleting the repeats from a run leaves the trace of the other calls and the module,
    as long as the module knows the keys taken for seen. -/
theorem firsts_alike {m m' : Module} (alike : Alike m m') (seen : List DeclKey)
    (known : ∀ k ∈ seen, ∃ id, m.Knows pf k id) (calls : List Call) :
    m'.trace pf (firsts (Call.declared pf) seen calls) =
        firsts (fun entry => entry.1.declared pf) seen (m.trace pf calls) ∧
      Alike (m.run pf calls) (m'.run pf (firsts (Call.declared pf) seen calls)) := by
  induction calls generalizing m m' seen with
  | nil => exact ⟨rfl, alike⟩
  | cons c calls ih =>
    have known' : ∀ k ∈ seen, ∃ id, (m.exec pf c).2.Knows pf k id := by
      intro k member
      obtain ⟨id, found⟩ := known k member
      exact ⟨id, Module.knows_exec pf found c⟩
    obtain ⟨answer, next⟩ := alike.exec c
    have cut : m.trace pf (c :: calls) =
        (c, (m.exec pf c).1) :: (m.exec pf c).2.trace pf calls := rfl
    rw [cut]
    cases declares : c.declared pf with
    | none =>
      obtain ⟨traces, final⟩ := ih next seen known'
      simp only [firsts, declares]
      refine ⟨?_, final⟩
      rw [← traces, ← answer]
      rfl
    | some k =>
      obtain ⟨e, action, key⟩ := Call.declared_eq_some pf declares
      have declared : m.exec pf c = (some (m.declare pf e).1, (m.declare pf e).2) := by
        rw [Module.exec, action]
        rfl
      simp only [firsts, declares]
      by_cases repeated : k ∈ seen
      · obtain ⟨id, found⟩ := known k repeated
        rw [if_pos repeated, if_pos repeated]
        have skipped : Alike (m.exec pf c).2 m' := by
          rw [declared]
          exact alike.declare_repeat (key ▸ found)
        exact ih skipped seen known'
      · rw [if_neg repeated, if_neg repeated]
        have learned : ∀ l ∈ k :: seen, ∃ id, (m.exec pf c).2.Knows pf l id := by
          intro l member
          rcases List.mem_cons.mp member with first | later
          · refine ⟨(m.declare pf e).1, ?_⟩
            rw [declared, first, ← key]
            exact m.declare_knows pf e
          · exact known' l later
        obtain ⟨traces, final⟩ := ih next (k :: seen) learned
        refine ⟨?_, final⟩
        rw [← traces, ← answer]
        rfl

/-- Repeated declarations are invisible: without them the other calls return the same, and
    the module is assembled to the same words; and each returns the id of the first. -/
theorem repeats_invisible (version : U32) (calls : List Call) :
    (Module.new pf version).trace pf (firsts (Call.declared pf) [] calls) =
      firsts (fun entry => entry.1.declared pf) []
        ((Module.new pf version).trace pf calls) ∧
    ((Module.new pf version).run pf (firsts (Call.declared pf) [] calls)).assemble pf =
      ((Module.new pf version).run pf calls).assemble pf ∧
    ∀ before between after c c' k, calls = before ++ c :: between ++ c' :: after →
      c.declared pf = some k → c'.declared pf = some k →
      (((Module.new pf version).run pf before).exec pf c).1 =
        (((Module.new pf version).run pf (before ++ c :: between)).exec pf c').1 := by
  obtain ⟨traces, alike⟩ := firsts_alike pf (Alike.refl (Module.new pf version)) []
    (fun _ member => absurd member List.not_mem_nil) calls
  refine ⟨traces, alike.assemble_eq pf, ?_⟩
  intro before between after c c' k _ declares declares'
  obtain ⟨e, action, key⟩ := Call.declared_eq_some pf declares
  obtain ⟨e', action', key'⟩ := Call.declared_eq_some pf declares'
  have first := ((Module.new pf version).run pf before).declare_knows pf e
  have kept : ((Module.new pf version).run pf (before ++ c :: between)).Knows pf k
      (((Module.new pf version).run pf before).declare pf e).1 := by
    rw [Module.run, Runs.run_append, Runs.run_cons]
    apply Runs.invariant_run (I := fun m : Module => m.Knows pf k _)
    · exact fun m c _ found => Module.knows_exec pf found c
    · rw [Module.exec, action, ← key]
      exact first
  have later := Module.declare_of_knows pf (key' ▸ kept)
  rw [Module.exec, Module.exec, action, action']
  exact congrArg some later.symm

theorem repeats_invisible_void :
    ((Module.new linuxX86 0).run linuxX86 [.type .typeVoid,
      .annotate (.decorate ⟨1⟩ 0 []), .opLabel]).assemble linuxX86 =
    ((Module.new linuxX86 0).run linuxX86 [.type .typeVoid, .type .typeVoid,
      .annotate (.decorate ⟨1⟩ 0 []), .opLabel]).assemble linuxX86 :=
  (repeats_invisible linuxX86 0 [.type .typeVoid, .type .typeVoid,
    .annotate (.decorate ⟨1⟩ 0 []), .opLabel]).2.1

end Sirit
