import Sirit.Defining

/- The logical layout of a module: the order of its parts, read off the assembled words. -/
namespace Sirit
open Framing Interning
variable (pf : Platform)

/-- The opcodes with a part of their own, in order; `OpLine` belongs to what follows it. -/
def layoutParts : List (Op × Option Nat) :=
  [(.opCapability, some 0), (.opExtension, some 1), (.opExtInstImport, some 2),
    (.opMemoryModel, some 3), (.opEntryPoint, some 4), (.opExecutionMode, some 5),
    (.opString, some 6), (.opName, some 7), (.opMemberName, some 7), (.opDecorate, some 8),
    (.opMemberDecorate, some 8), (.opLine, none)]

def opcodeRank (opcode : BitVec 16) : Option Nat :=
  ((layoutParts.find? fun part => pf.opcode part.1 = opcode).map Prod.snd).getD (some 9)

/-- Everything in the code stream is in the last part. -/
def rankAt (codeStart : Nat) (p : Nat × List U32) : Option Nat :=
  if codeStart ≤ p.1 then some 10 else opcodeRank pf (headerOpcode (p.2.headD 0))

def Module.codeStart (m : Module) : Nat := (m.assemble pf).length - m.code.written.length

def Module.declarationsStart (m : Module) : Nat :=
  m.codeStart pf - m.globalVariables.written.length - m.declarations.stream.written.length

def Module.visited (m : Module) : List (Nat × List U32) :=
  positions 5 (split wordCount ((m.assemble pf).drop 5)).1

structure Module.InLayout (m : Module) : Prop where
  sorted : ((m.visited pf).filterMap (rankAt pf (m.codeStart pf))).Pairwise (· ≤ ·)
  lines : ∀ p ∈ m.visited pf, headerOpcode (p.2.headD 0) = pf.opcode .opLine →
    m.declarationsStart pf ≤ p.1

def Op.rank (o : Op) : Option Nat :=
  ((layoutParts.find? fun part => part.1 = o).map Prod.snd).getD (some 9)

theorem opcodeRank_opcode (o : Op) : opcodeRank pf (pf.opcode o) = o.rank := by
  simp only [opcodeRank, Op.rank, pf.opcode_injective.eq_iff]

theorem sorted_flatMap_iff {parts : List ((Nat × Nat) × List Nat)}
    (ranges : ∀ part ∈ parts, ∀ r ∈ part.2, part.1.1 ≤ r ∧ r ≤ part.1.2)
    (ordered : parts.Pairwise fun p q => p.1.2 ≤ q.1.1) :
    (parts.flatMap Prod.snd).Pairwise (· ≤ ·) ↔
      ∀ part ∈ parts, part.2.Pairwise (· ≤ ·) := by
  induction parts with
  | nil => simp
  | cons part parts ih =>
    obtain ⟨before, rest⟩ := List.pairwise_cons.mp ordered
    have apart : ∀ r ∈ part.2, ∀ r' ∈ parts.flatMap Prod.snd, r ≤ r' := by
      intro r low r' high
      obtain ⟨other, listed, inside⟩ := List.mem_flatMap.mp high
      have top := (ranges part (by simp) r low).2
      have bottom := (ranges other (by simp [listed]) r' inside).1
      have gap := before other listed
      omega
    rw [List.flatMap_cons, List.pairwise_append, List.forall_mem_cons,
      ih (fun q listed => ranges q (by simp [listed])) rest]
    constructor
    · exact fun sorted => ⟨sorted.1, sorted.2.1⟩
    · exact fun sorted => ⟨sorted.1, sorted.2, apart⟩

theorem sorted_of_const {rs : List Nat} {r : Nat} (all : ∀ x ∈ rs, r ≤ x ∧ x ≤ r) :
    rs.Pairwise (· ≤ ·) := by
  apply List.pairwise_of_forall_mem_list
  intro x hx y hy
  have := all x hx
  have := all y hy
  omega

theorem rankAt_positions {is : List Instruction} {start codeStart : Nat}
    (before : start + (is.flatMap (Instruction.words pf)).length ≤ codeStart) :
    (positions start (is.map (Instruction.words pf))).filterMap (rankAt pf codeStart) =
      is.filterMap fun i => i.op.rank := by
  induction is generalizing start with
  | nil => rfl
  | cons i is ih =>
    have long : 0 < (i.words pf).length := Nat.succ_pos _
    rw [List.flatMap_cons, List.length_append] at before
    have rank : rankAt pf codeStart (start, i.words pf) = i.op.rank := by
      rw [rankAt, if_neg (by omega), Instruction.headerOpcode_words, opcodeRank_opcode]
    simp only [List.map_cons, positions, List.filterMap_cons, rank]
    rw [ih (by omega)]

theorem rankAt_code (frames : List (List U32)) (codeStart : Nat) {r : Nat}
    (member : r ∈ (positions codeStart frames).filterMap (rankAt pf codeStart)) : r = 10 := by
  obtain ⟨p, visited, rank⟩ := List.mem_filterMap.mp member
  rw [rankAt, if_pos (positions_bounds visited).2.1] at rank
  exact (Option.some.inj rank).symm

def Call.debugOp : Call → Option Op
  | .debug c => some c.emission.head.opcode
  | _ => none

def Listing.debugOps (l : Listing) : List Op := (l.instructions .debug).map Instruction.op

theorem Listing.debugOps_step (l : Listing) (c : Call) :
    (l.step pf c).2.debugOps = l.debugOps ++ c.debugOp.toList := by
  have added : (c.listed pf l.bound .debug).map Instruction.op = c.debugOp.toList := by
    cases c with
    | debug c => exact congrArg (fun o => [o]) (c.emission.instruction_op pf l.bound)
    | _ => rfl
  rw [Listing.debugOps, l.instructions_step pf c (by decide) (by decide), List.map_append, added]
  rfl

theorem listing_debugOps (version : U32) (calls : List Call) :
    (listing pf version calls).debugOps = calls.filterMap Call.debugOp := by
  rw [List.filterMap_eq_flatMap_toList]
  exact Runs.appended (f := Listing.debugOps) (Listing.debugOps_step pf) calls

def Section.ranks : Section → Nat × Nat
  | .extInstImports => (2, 2)
  | .entryPoints => (4, 4)
  | .executionModes => (5, 5)
  | .debug => (6, 7)
  | .annotations => (8, 8)
  | .globalVariables => (9, 9)
  | .code => (10, 10)

theorem Section.rank_of_admits {sec : Section} {o : Op} {r : Nat} (before : sec ≠ .code)
    (admitted : sec.admits o = true) (ranked : o.rank = some r) :
    sec.ranks.1 ≤ r ∧ r ≤ sec.ranks.2 := by
  unfold Section.admits at admitted
  split at admitted
  case h_7 => cases ranked
  case h_11 => exact absurd rfl before
  case h_12 => cases admitted
  all_goals
    obtain rfl := Option.some.inj ranked
    decide

theorem Op.rank_of_isDeclaration {o : Op} (declares : o.isDeclaration = true) :
    o.rank = some 9 := by
  unfold Op.isDeclaration at declares
  split at declares
  all_goals first | rfl | cases declares

def ranksOf (is : List Instruction) : List Nat := is.filterMap fun i => i.op.rank

theorem ranksOf_const {is : List Instruction} {r : Nat}
    (all : ∀ i ∈ is, i.op.rank = some r) : ∀ x ∈ ranksOf is, r ≤ x ∧ x ≤ r := by
  intro x member
  obtain ⟨i, inside, ranked⟩ := List.mem_filterMap.mp member
  have same := Option.some.inj ((all i inside).symm.trans ranked)
  omega

theorem Listing.Placed.ranks {labels : Id → Prop} {l : Listing} (placed : l.Placed labels)
    {sec : Section} (before : sec ≠ .code) :
    ∀ r ∈ ranksOf (l.instructions sec), sec.ranks.1 ≤ r ∧ r ≤ sec.ranks.2 := by
  intro r member
  obtain ⟨i, inside, ranked⟩ := List.mem_filterMap.mp member
  rcases placed.sections sec i inside with admitted | ⟨code, _⟩
  · exact Section.rank_of_admits before admitted ranked
  · exact absurd code before

def Listing.parts (l : Listing) (code : List Nat) : List ((Nat × Nat) × List Nat) :=
  [((0, 0), ranksOf ((pf.capabilityOrder l.capabilities).map capabilityInstruction)),
    ((1, 1), ranksOf ((pf.extensionOrder l.extensions).map (extensionInstruction pf))),
    ((2, 2), ranksOf (l.instructions .extInstImports)),
    ((3, 3), ranksOf [memoryModelInstruction l.addressingModel l.memoryModel]),
    ((4, 4), ranksOf (l.instructions .entryPoints)),
    ((5, 5), ranksOf (l.instructions .executionModes)),
    ((6, 7), ranksOf (l.instructions .debug)),
    ((8, 8), ranksOf (l.instructions .annotations)),
    ((9, 9), ranksOf l.declarationInstructions),
    ((9, 9), ranksOf (l.instructions .globalVariables)),
    ((10, 10), code)]

theorem Listing.parts_flatMap (l : Listing) (code : List Nat) :
    (l.parts pf code).flatMap Prod.snd = ranksOf (l.preamble pf ++ l.globals) ++ code := by
  simp only [Listing.parts, Listing.preamble, Listing.globals, ranksOf, List.filterMap_append,
    List.flatMap_cons, List.flatMap_nil, List.append_assoc, List.append_nil]

theorem Listing.Placed.parts_ranges {labels : Id → Prop} {l : Listing}
    (placed : l.Placed labels) {code : List Nat} (last : ∀ r ∈ code, r = 10) :
    ∀ part ∈ l.parts pf code, ∀ r ∈ part.2, part.1.1 ≤ r ∧ r ≤ part.1.2 := by
  simp only [Listing.parts, List.forall_mem_cons]
  refine ⟨ranksOf_const ?_, ranksOf_const ?_, placed.ranks (by decide), ranksOf_const ?_,
    placed.ranks (by decide), placed.ranks (by decide), placed.ranks (by decide),
    placed.ranks (by decide), ranksOf_const ?_, placed.ranks (by decide), ?_, ?_⟩
  · intro i member
    obtain ⟨capability, _, rfl⟩ := List.mem_map.mp member
    rfl
  · intro i member
    obtain ⟨extensionName, _, rfl⟩ := List.mem_map.mp member
    rfl
  · intro i member
    rw [List.mem_singleton.mp member]
    rfl
  · intro i member
    obtain ⟨e, listed, rfl⟩ := List.mem_map.mp member
    exact Op.rank_of_isDeclaration (placed.declarations e listed)
  · intro r member
    have := last r member
    omega
  · exact fun part member => absurd member List.not_mem_nil

def Call.IsString : Call → Prop
  | .debug (.string _) => True
  | _ => False

def Call.IsName : Call → Prop
  | .debug (.name _ _) | .debug (.memberName _ _ _) => True
  | _ => False

def Call.IsLine : Call → Prop
  | .debug (.opLine _ _ _) => True
  | _ => False

instance decidableCallIsString (c : Call) : Decidable c.IsString := by
  unfold Call.IsString
  split <;> infer_instance

instance decidableCallIsName (c : Call) : Decidable c.IsName := by
  unfold Call.IsName
  split <;> infer_instance

instance decidableCallIsLine (c : Call) : Decidable c.IsLine := by
  unfold Call.IsLine
  split <;> infer_instance

theorem Call.isLine_iff (c : Call) : c.IsLine ↔ c.debugOp = some .opLine := by
  cases c with
  | debug c =>
    cases c with
    | opLine file line column => exact iff_of_true trivial rfl
    | _ => exact iff_of_false id (fun same => by cases Option.some.inj same)
  | _ => exact iff_of_false id (fun same => by cases same)

theorem Call.debugRank_iff (c : Call) (r : Nat) :
    c.debugOp.bind Op.rank = some r ↔ (c.IsString ∧ r = 6) ∨ (c.IsName ∧ r = 7) := by
  cases c with
  | debug c =>
    cases c with
    | string text =>
      change some 6 = some r ↔ (True ∧ r = 6) ∨ (False ∧ r = 7)
      simp [eq_comm]
    | name target text =>
      change some 7 = some r ↔ (False ∧ r = 6) ∨ (True ∧ r = 7)
      simp [eq_comm]
    | memberName type member text =>
      change some 7 = some r ↔ (False ∧ r = 6) ∨ (True ∧ r = 7)
      simp [eq_comm]
    | opLine file line column =>
      change none = some r ↔ (False ∧ r = 6) ∨ (False ∧ r = 7)
      simp
  | _ =>
    change none = some r ↔ (False ∧ r = 6) ∨ (False ∧ r = 7)
    simp

theorem Call.ranks_ordered_iff (c c' : Call) :
    (∀ r, c.debugOp.bind Op.rank = some r → ∀ r', c'.debugOp.bind Op.rank = some r' → r ≤ r') ↔
      (c.IsName → ¬ c'.IsString) := by
  constructor
  · intro ordered name string
    have above := ordered 7 ((c.debugRank_iff 7).mpr (Or.inr ⟨name, rfl⟩)) 6
      ((c'.debugRank_iff 6).mpr (Or.inl ⟨string, rfl⟩))
    omega
  · intro apart r ranked r' ranked'
    rcases (c.debugRank_iff r).mp ranked with ⟨_, rfl⟩ | ⟨name, rfl⟩
    · rcases (c'.debugRank_iff r').mp ranked' with ⟨_, rfl⟩ | ⟨_, rfl⟩
      · omega
      · omega
    · rcases (c'.debugRank_iff r').mp ranked' with ⟨string, rfl⟩ | ⟨_, rfl⟩
      · exact absurd string (apart name)
      · omega

theorem listing_debug_sorted_iff (version : U32) (calls : List Call) :
    (ranksOf ((listing pf version calls).instructions .debug)).Pairwise (· ≤ ·) ↔
      calls.Pairwise fun c c' => c.IsName → ¬ c'.IsString := by
  have ranks : ranksOf ((listing pf version calls).instructions .debug) =
      calls.filterMap fun c => c.debugOp.bind Op.rank := by
    rw [← List.filterMap_filterMap, ← listing_debugOps pf version, Listing.debugOps,
      List.filterMap_map]
    rfl
  rw [ranks, List.pairwise_filterMap]
  exact List.Pairwise.iff Call.ranks_ordered_iff

theorem Listing.Placed.line_in_preamble {labels : Id → Prop} {l : Listing}
    (placed : l.Placed labels) {i : Instruction} (listed : i ∈ l.preamble pf)
    (line : i.op = .opLine) : Op.opLine ∈ l.debugOps := by
  have debug_only : ∀ sec, sec ≠ .code → i ∈ l.instructions sec → Op.opLine ∈ l.debugOps := by
    intro sec before inside
    rcases placed.sections sec i inside with admitted | ⟨code, _⟩
    · rw [line] at admitted
      cases sec with
      | debug => exact List.mem_map.mpr ⟨i, inside, line⟩
      | code => exact absurd rfl before
      | _ => cases admitted
    · exact absurd code before
  simp only [Listing.preamble, List.mem_append] at listed
  rcases listed with
    ((((((inside | inside) | inside) | inside) | inside) | inside) | inside) | inside
  · obtain ⟨capability, _, rfl⟩ := List.mem_map.mp inside
    cases line
  · obtain ⟨extensionName, _, rfl⟩ := List.mem_map.mp inside
    cases line
  · exact debug_only .extInstImports (by decide) inside
  · rw [List.mem_singleton.mp inside] at line
    cases line
  · exact debug_only .entryPoints (by decide) inside
  · exact debug_only .executionModes (by decide) inside
  · exact debug_only .debug (by decide) inside
  · exact debug_only .annotations (by decide) inside

section Refined
variable {pf} {m : Module} {l : Listing} (refines : Refines pf (· ≠ .code) m l)
include refines

theorem Refines.codeStart_eq : m.codeStart pf =
    5 + ((l.preamble pf ++ l.globals).flatMap (Instruction.words pf)).length := by
  rw [Module.codeStart, refines.assemble_eq fun _ other => other]
  simp only [List.length_append, List.length_cons, List.length_nil]
  omega

theorem Refines.declarationsStart_eq : m.declarationsStart pf =
    5 + ((l.preamble pf).flatMap (Instruction.words pf)).length := by
  have globals : m.globalVariables.written = _ :=
    refines.sections .globalVariables (by decide)
  rw [Module.declarationsStart, refines.codeStart_eq, refines.declared, globals,
    Listing.globals]
  simp only [List.flatMap_append, List.length_append]
  omega

theorem Refines.visited_eq (short : ∀ i ∈ l.preamble pf ++ l.globals, i.width ≤ 65535) :
    m.visited pf =
      positions 5 ((l.preamble pf ++ l.globals).map (Instruction.words pf)) ++
        positions (m.codeStart pf) (split wordCount m.code.written).1 := by
  rw [refines.codeStart_eq, Module.visited, refines.assemble_eq fun _ other => other,
    List.append_assoc]
  change positions 5 (split wordCount (_ ++ m.code.written)).1 = _
  rw [split_instructions pf short, positions_append, ← List.flatMap_def]

theorem Refines.ranks_eq (short : ∀ i ∈ l.preamble pf ++ l.globals, i.width ≤ 65535) :
    ∃ code : List Nat, (∀ r ∈ code, r = 10) ∧
      (m.visited pf).filterMap (rankAt pf (m.codeStart pf)) =
        (l.parts pf code).flatMap Prod.snd := by
  refine ⟨_, fun r => rankAt_code pf (split wordCount m.code.written).1 (m.codeStart pf), ?_⟩
  rw [refines.visited_eq short, List.filterMap_append, Listing.parts_flatMap,
    rankAt_positions pf (Nat.le_of_eq refines.codeStart_eq.symm)]
  rfl

theorem Refines.sorted_iff {labels : Id → Prop} (placed : l.Placed labels)
    (short : ∀ i ∈ l.preamble pf ++ l.globals, i.width ≤ 65535) :
    ((m.visited pf).filterMap (rankAt pf (m.codeStart pf))).Pairwise (· ≤ ·) ↔
      (ranksOf (l.instructions .debug)).Pairwise (· ≤ ·) := by
  obtain ⟨code, last, ranks⟩ := refines.ranks_eq short
  have ranges := Listing.Placed.parts_ranges pf placed last
  rw [ranks, sorted_flatMap_iff ranges (by simp [Listing.parts])]
  constructor
  · intro sorted
    exact sorted ((6, 7), ranksOf (l.instructions .debug)) (by simp [Listing.parts])
  · intro sorted part listed
    by_cases single : part.1.1 = part.1.2
    · apply sorted_of_const (r := part.1.1)
      intro r member
      have range := ranges part listed r member
      omega
    · have debug : part = ((6, 7), ranksOf (l.instructions .debug)) := by
        simp only [Listing.parts, List.mem_cons, List.not_mem_nil, or_false] at listed
        rcases listed with rfl | rfl | rfl | rfl | rfl | rfl | same | rfl | rfl | rfl | rfl
        case inr.inr.inr.inr.inr.inr.inl => exact same
        all_goals exact absurd rfl single
      rw [debug]
      exact sorted

theorem Refines.lines_iff {labels : Id → Prop} (placed : l.Placed labels)
    (short : ∀ i ∈ l.preamble pf ++ l.globals, i.width ≤ 65535) :
    (∀ p ∈ m.visited pf, headerOpcode (p.2.headD 0) = pf.opcode .opLine →
      m.declarationsStart pf ≤ p.1) ↔ Op.opLine ∉ l.debugOps := by
  have start := refines.declarationsStart_eq
  have codeStart := refines.codeStart_eq
  rw [refines.visited_eq short, List.map_append, positions_append, ← List.flatMap_def, ← start]
  rw [List.flatMap_append, List.length_append] at codeStart
  constructor
  · intro lines member
    obtain ⟨i, inside, line⟩ := List.mem_map.mp member
    have listed : i ∈ l.preamble pf := by simp [Listing.preamble, inside]
    obtain ⟨n, visited⟩ := exists_position 5
      (List.mem_map_of_mem (f := Instruction.words pf) listed)
    have late := lines (n, i.words pf) (by simp [visited])
      ((i.headerOpcode_words pf).trans (congrArg pf.opcode line))
    have early := (positions_bounds visited).2.2
    have long : 0 < (i.words pf).length := Nat.succ_pos _
    rw [← List.flatMap_def, ← start] at early
    simp only at late early
    omega
  · intro absent p member line
    rcases List.mem_append.mp member with global | code
    · rcases List.mem_append.mp global with preamble | global
      · obtain ⟨inside, _⟩ := positions_bounds preamble
        obtain ⟨i, listed, words⟩ := List.mem_map.mp inside
        rw [← words, Instruction.headerOpcode_words] at line
        exact absurd (placed.line_in_preamble pf listed (pf.opcode_injective line)) absent
      · exact (positions_bounds global).2.1
    · have later := (positions_bounds code).2.1
      omega

end Refined

/-- The assembled module is laid out as specified exactly when the run makes no `OpLine`
    call and no `String` call after a name. -/
theorem layout_iff (version : U32) (calls : List Call)
    (short : (listing pf version calls).Short pf) :
    ((Module.new pf version).run pf calls).InLayout pf ↔
      (∀ c ∈ calls, ¬ c.IsLine) ∧ calls.Pairwise fun c c' => c.IsName → ¬ c'.IsString := by
  obtain ⟨_, refines⟩ := run_refines pf (· ≠ .code) version calls
    (fun _ _ _ other => other rfl)
  have placed := listing_placed pf version calls
  have short' : ∀ i ∈ (listing pf version calls).preamble pf ++
      (listing pf version calls).globals, i.width ≤ 65535 := by
    intro i member
    exact short i (List.mem_append_left _ member)
  have sorted := (refines.sorted_iff placed short').trans
    (listing_debug_sorted_iff pf version calls)
  have lines := refines.lines_iff placed short'
  have none_iff : Op.opLine ∉ (listing pf version calls).debugOps ↔ ∀ c ∈ calls, ¬ c.IsLine := by
    simp only [listing_debugOps, List.mem_filterMap, not_exists, not_and, Call.isLine_iff]
  constructor
  · rintro ⟨inOrder, late⟩
    exact ⟨none_iff.mp (lines.mp late), sorted.mp inOrder⟩
  · rintro ⟨noLine, apart⟩
    exact ⟨sorted.mpr apart, lines.mpr (none_iff.mpr noLine)⟩

theorem layout_kept_mixed : ((Module.new linuxX86 0).run linuxX86
    [.addLabel ⟨9⟩, .debug (.string [0x66]), .annotate (.decorate ⟨1⟩ 0 []),
      .debug (.name ⟨1⟩ [0x66]), .type .typeVoid, .addCapability 1,
      .debug (.memberName ⟨1⟩ 0 [])]).InLayout linuxX86 :=
  (layout_iff linuxX86 0 _ (by decide)).mpr (by decide)

/-- A name before a string. -/
theorem string_after_name_out_of_order : ¬ ∀ (pf : Platform) (version : U32) (calls : List Call),
    (listing pf version calls).Short pf →
      ((Module.new pf version).run pf calls).InLayout pf := by
  intro all
  have layout := all linuxX86 0 [.debug (.name ⟨1⟩ [0x66]), .debug (.string [0x66])] (by decide)
  exact absurd layout.sorted (by decide)

end Sirit
