import Sirit.Assembled

/- The two computations of the length of a string: the formula a vector is grown by, and
   the loop that fills it. The loop is taken here as the source has it, by offsets. -/
namespace Sirit
open VectorCursor
variable (pf : Platform)

section Loop
variable {σ : Type} (store : U32 → σ → σ) (signed : Bool) (string : List U8)

/-- From the offset `i` on. `store` is `words[insert_index++] = value`. -/
def insertStringViewLoop (i : Nat) (s : σ) : σ :=
  if i < string.length then
    insertStringViewLoop (i + 4) (store (stringWord signed string i) s)
  else s
termination_by string.length - i

def insertStringViewWith (s : σ) : σ :=
  let s := insertStringViewLoop store signed string 0 s
  if string.length % 4 = 0 then store 0 s else s

theorem insertStringViewLoop_eq {k n : Nat} (rest : k + n = (string.length + 3) / 4) (s : σ) :
    insertStringViewLoop store signed string (4 * k) s =
      (List.range' k n).foldl (fun s j => store (stringWord signed string (4 * j)) s) s := by
  induction n generalizing k s with
  | zero =>
    have done : ¬ 4 * k < string.length := by omega
    rw [insertStringViewLoop, if_neg done]
    rfl
  | succ n ih =>
    have inside : 4 * k < string.length := by omega
    have next : k + 1 + n = (string.length + 3) / 4 := by omega
    rw [insertStringViewLoop, if_pos inside, List.range'_succ, List.foldl_cons]
    exact ih next _

theorem insertStringViewWith_eq (s : σ) :
    insertStringViewWith store signed string s =
      (stringWords signed string).foldl (fun s v => store v s) s := by
  have loop := insertStringViewLoop_eq store signed string (Nat.zero_add _) s
  rw [Nat.mul_zero, ← List.range_eq_range'] at loop
  rw [insertStringViewWith, loop, stringWords, List.foldl_append, List.foldl_map]
  split <;> rfl

end Loop

def recordString (signed : Bool) (string : List U8) (c : Cursor U32) : Recorded U32 :=
  insertStringViewWith Recorded.put signed string ⟨c, []⟩

theorem recordString_eq (signed : Bool) (string : List U8) (c : Cursor U32) :
    recordString signed string c = Recorded.putAll (stringWords signed string) ⟨c, []⟩ :=
  insertStringViewWith_eq Recorded.put signed string ⟨c, []⟩

structure StoresString (signed : Bool) (string : List U8) (c : Cursor U32) : Prop where
  after : (recordString signed string c).cursor = insertStringView signed string c
  indices : (recordString signed string c).stores.map Prod.fst =
    List.range' c.insertIndex (wordsInString string)
  values : (recordString signed string c).stores.map Prod.snd = stringWords signed string
  inside : ∀ store ∈ (recordString signed string c).stores, store.1 < c.words.length
  length : (insertStringView signed string c).words.length = c.words.length
  stored : ∀ store ∈ (recordString signed string c).stores,
    (insertStringView signed string c).words[store.1]? = some store.2
  others : ∀ j, j < c.insertIndex ∨ c.insertIndex + wordsInString string ≤ j →
    (insertStringView signed string c).words[j]? = c.words[j]?
  advanced : (insertStringView signed string c).insertIndex =
    c.insertIndex + (string.length / 4 + 1)
  overruns : (insertStringView signed string c).overruns = c.overruns

theorem recordString_stores (signed : Bool) (string : List U8) (c : Cursor U32) :
    (recordString signed string c).stores =
      (List.range' c.insertIndex (wordsInString string)).zip (stringWords signed string) := by
  rw [recordString_eq, Recorded.stores_putAll, stringWords_length]
  exact List.nil_append _

theorem length_range'_wordsInString (signed : Bool) (string : List U8) (i : Nat) :
    (List.range' i (wordsInString string)).length = (stringWords signed string).length := by
  rw [List.length_range', stringWords_length]

theorem recordString_indices (signed : Bool) (string : List U8) (c : Cursor U32) :
    (recordString signed string c).stores.map Prod.fst =
      List.range' c.insertIndex (wordsInString string) := by
  rw [recordString_stores, List.map_fst_zip]
  exact Nat.le_of_eq (length_range'_wordsInString signed string c.insertIndex)

theorem recordString_values (signed : Bool) (string : List U8) (c : Cursor U32) :
    (recordString signed string c).stores.map Prod.snd = stringWords signed string := by
  rw [recordString_stores, List.map_snd_zip]
  exact Nat.le_of_eq (length_range'_wordsInString signed string c.insertIndex).symm

theorem StoresString.of_room {signed : Bool} {string : List U8} {c : Cursor U32}
    (room : c.insertIndex + wordsInString string ≤ c.words.length) :
    StoresString signed string c := by
  have fits : c.insertIndex + (stringWords signed string).length ≤ c.words.length := by
    rwa [stringWords_length]
  have written := insertStringView_eq signed string c
  refine {
    after := ?_
    indices := recordString_indices signed string c
    values := recordString_values signed string c
    inside := ?_
    length := ?_
    stored := ?_
    others := ?_
    advanced := ?_
    overruns := ?_ }
  · rw [recordString_eq, Recorded.cursor_putAll, written]
  · intro store member
    have place := List.mem_map_of_mem (f := Prod.fst) member
    rw [recordString_indices, List.mem_range'_1] at place
    omega
  · rw [written, Cursor.length_putAll_of_room fits]
  · rw [recordString_eq, written]
    exact Recorded.stored_putAll fits
  · intro j outside
    rw [← stringWords_length signed string] at outside
    rw [written, Cursor.getElem?_putAll_of_outside fits outside]
  · rw [written, Cursor.insertIndex_putAll, stringWords_length]
    rfl
  · have slack := c.words_length
    rw [written, Cursor.overruns_putAll]
    omega

/-- After the header is pushed and the vector resized, at the index taken in between. -/
def extensionCursor (words : List U32) (extensionName : List U8) : Cursor U32 where
  words := words ++ [makeWord0 (pf.op .opExtension) (wordsInString extensionName + 1)] ++
    List.replicate (wordsInString extensionName) 0
  insertIndex := words.length + 1
  overruns := 0
  bounded := by simp

theorem insertExtension_eq_extensionCursor (words : List U32) (extensionName : List U8) :
    insertExtension pf words extensionName =
      (insertStringView pf.charSigned extensionName
        (extensionCursor pf words extensionName)).words := by
  simp only [insertExtension, extensionCursor, List.length_append, List.length_singleton]

theorem extensionCursor_room (words : List U32) (extensionName : List U8) :
    (extensionCursor pf words extensionName).insertIndex + wordsInString extensionName =
      (extensionCursor pf words extensionName).words.length := by
  simp only [extensionCursor, List.length_append, List.length_singleton, List.length_replicate]

/-- What was computed before the name is written agrees with what is written. -/
structure ExtensionAgrees (words : List U32) (extensionName : List U8) : Prop where
  grown : insertExtension pf words extensionName =
    (insertStringView pf.charSigned extensionName
      (extensionCursor pf words extensionName)).words
  string : StoresString pf.charSigned extensionName (extensionCursor pf words extensionName)
  count : (recordString pf.charSigned extensionName
    (extensionCursor pf words extensionName)).stores.length = wordsInString extensionName
  -- the header keeps the low 16 bits of the count
  counted : wordCount (makeWord0 (pf.op .opExtension) (wordsInString extensionName + 1)) =
    ((recordString pf.charSigned extensionName
      (extensionCursor pf words extensionName)).stores.length + 1) % 65536
  contents : insertExtension pf words extensionName =
    words ++ makeWord0 (pf.op .opExtension) (wordsInString extensionName + 1) ::
      (recordString pf.charSigned extensionName
        (extensionCursor pf words extensionName)).stores.map Prod.snd
  finish : (insertStringView pf.charSigned extensionName
      (extensionCursor pf words extensionName)).insertIndex =
    (insertExtension pf words extensionName).length
  overruns : (insertStringView pf.charSigned extensionName
    (extensionCursor pf words extensionName)).overruns = 0

theorem extensionAgrees (words : List U32) (extensionName : List U8) :
    ExtensionAgrees pf words extensionName := by
  have grown := insertExtension_eq_extensionCursor pf words extensionName
  have room := extensionCursor_room pf words extensionName
  have string : StoresString pf.charSigned extensionName
      (extensionCursor pf words extensionName) := StoresString.of_room (Nat.le_of_eq room)
  have count := congrArg List.length string.values
  rw [List.length_map, stringWords_length] at count
  refine {
    grown := grown
    string := string
    count := count
    counted := by rw [count, wordCount_makeWord0_mod]
    contents := ?_
    finish := ?_
    overruns := string.overruns }
  · rw [string.values, insertExtension_eq]
  · rw [grown, string.length, string.advanced]
    exact room

def Module.laterSections (m : Module) : List U32 :=
  m.extInstImports.written ++
    [makeWord0 (pf.op .opMemoryModel) 3, m.addressingModel, m.memoryModel] ++
    m.entryPoints.written ++ m.executionModes.written ++ m.debug.written ++
    m.annotations.written ++ m.declarations.stream.written ++ m.globalVariables.written ++
    m.code.written

theorem Module.assemble_eq_laterSections (m : Module) :
    m.assemble pf = [pf.magicNumber, m.version, generatorMagicNumber, m.bound + 1, 0] ++
      (pf.capabilityOrder m.capabilities).flatMap
        (fun capability => [makeWord0 (pf.op .opCapability) 2, capability]) ++
      (pf.extensionOrder m.extensions).flatMap
        (fun name => makeWord0 (pf.op .opExtension)
          ((stringWords pf.charSigned name).length + 1) :: stringWords pf.charSigned name) ++
      m.laterSections pf := by
  simp only [Module.assemble, Module.laterSections, foldl_capabilities,
    foldl_insertExtension, List.flatMap_map, extensionInstruction_words, stringWords_length,
    List.append_assoc]
  rfl

/-- The formula and the loop agree on every string; hence the words of an extension are
    those its header counts, and what follows it starts where they end. -/
theorem string_lengths_agree :
    (∀ (signed : Bool) (string : List U8) (c : Cursor U32),
      c.insertIndex + wordsInString string ≤ c.words.length → StoresString signed string c) ∧
    (∀ (words : List U32) (extensionName : List U8),
      ExtensionAgrees pf words extensionName) ∧
    ∀ m : Module, m.assemble pf =
      [pf.magicNumber, m.version, generatorMagicNumber, m.bound + 1, 0] ++
        (pf.capabilityOrder m.capabilities).flatMap
          (fun capability => [makeWord0 (pf.op .opCapability) 2, capability]) ++
        (pf.extensionOrder m.extensions).flatMap
          (fun name => makeWord0 (pf.op .opExtension)
            ((stringWords pf.charSigned name).length + 1) :: stringWords pf.charSigned name) ++
        m.laterSections pf :=
  ⟨fun _ _ _ => StoresString.of_room, extensionAgrees pf, Module.assemble_eq_laterSections pf⟩

theorem string_lengths_agree_main :
    StoresString true [0x6D, 0x61, 0x69, 0x6E] ⟨[1, 2, 3, 4], 1, 0, by decide⟩ :=
  (string_lengths_agree linuxX86).1 true [0x6D, 0x61, 0x69, 0x6E]
    ⟨[1, 2, 3, 4], 1, 0, by decide⟩ (by decide)

end Sirit
