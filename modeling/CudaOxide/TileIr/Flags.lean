import CudaOxide.TileIr.OpWriter

/-!
# Boolean attributes in three places

`flush_to_zero`, `propagate_nan` and `unsigned_cmp` are looked up by the bytecode writer
(`op_writer.rs`), by the printer (`ir/fmt.rs`) and by the target verifier (`verify_target.rs`).

* `Opcode.flagNames` — the attributes that an operation writes as bits of its flags word.
* `printedFlags`, `flushToZeroOn` — the attributes that are printed and verified as on.
* `flagsAgree_iff` — the three agree exactly when no attribute stands first as `false`, and no `for`
  has an `unsigned_cmp`.
-/

namespace CudaOxide.TileIr

open CudaOxide.Lib

/-! ### The printer -/

/-- `find_bool_attr`: an attribute of another kind counts as true. -/
def findBoolAttr (attrs : Attributes) (name : String) : Option Bool :=
  (findAttr attrs name).map fun
    | .bool b => b
    | _ => true

/-- A keyword, where the attribute is on. -/
def Operation.keyword (op : Operation) (name : String) : List String :=
  if findBoolAttr op.attributes name = some true then [name] else []

/-- The keywords among the printed text of an operation.  `print_for_op` prints no attribute. -/
def Operation.printedFlags (op : Operation) : List String :=
  match op.opcode with
  | .addF | .divF | .mulF | .subF | .fma | .sqrt | .exp2 | .rsqrt => op.keyword "flush_to_zero"
  | .maxF | .minF => op.keyword "flush_to_zero" ++ op.keyword "propagate_nan"
  | _ => []

/-! ### The target verifier -/

/-- The attribute is `false`. -/
def Attribute.isFalse : Attribute → Bool
  | .bool b => !b
  | _ => false

/-- The element of a tile of scalars. -/
def Ty.tileScalar (ty : Ty) : Option ScalarType :=
  match ty.withoutPointerAttribute with
  | .tile ⟨_, .scalar s⟩ => some s
  | _ => none

/-- Any attribute of the name counts, not only the first. -/
def flushToZeroOn (attrs : Attributes) : Bool :=
  attrs.any fun p => p.1 = "flush_to_zero" && !p.2.isFalse

/-- The check that ends `verify_operation`. -/
def verifyFlushToZero (m : Module) (op : Operation) : Except String Unit :=
  let scalar := do (← m.values[← op.operands[0]?]?).ty.tileScalar
  if flushToZeroOn op.attributes && decide (scalar ≠ some .f32) then
    .error "flush_to_zero requires f32"
  else .ok ()

/-! ### The writer -/

/-- The attributes in the flags word of an operation, lowest bit first. -/
def Opcode.flagNames : Opcode → List String
  | .addF | .divF | .mulF | .subF | .fma | .sqrt | .exp2 | .rsqrt => ["flush_to_zero"]
  | .maxF | .minF => ["propagate_nan", "flush_to_zero"]
  | .forOp => ["unsigned_cmp"]
  | _ => []

/-- The fields before the flags word: only a `for` writes the number of its results. -/
def Operation.flagHead (op : Operation) : List Field :=
  (if op.opcode = .forOp then [op.resultCount] else []) ++ op.resultTypeFields

/-- The flags word that is written behind the result types. -/
def WritesFlags (m : Module) (version : BytecodeVersion) (op : Operation) (word : ℕ) : Prop :=
  ∃ rest, opcodeFields m version op = op.flagHead ++ .varint word :: rest

/-- The writer, the printer and the verifier take the flag attributes of an operation alike. -/
def FlagsAgree (m : Module) (version : BytecodeVersion) (op : Operation) : Prop :=
  ∀ i name, op.opcode.flagNames[i]? = some name → ∃ word, WritesFlags m version op word ∧
    (word.testBit i = true ↔ name ∈ op.printedFlags) ∧
    (name = "flush_to_zero" → (word.testBit i = true ↔ flushToZeroOn op.attributes = true))

/-- No flag attribute is given as `false` where it is looked up, and a `for` has none. -/
structure FlagsHonest (op : Operation) : Prop where
  notFalse : ∀ name ∈ op.opcode.flagNames, op.findAttr name ≠ some (.bool false)
  noUnsigned : op.opcode = .forOp → op.findAttr "unsigned_cmp" = none

variable {m : Module} {version : BytecodeVersion} {op : Operation}

/-! ### Reading the flags word -/

/-- A bit of the flags word. -/
theorem flagsWord_testBit (bits : List Bool) (i : ℕ) :
    (Operation.flagsWord bits).testBit i = bits[i]?.getD false := by
  induction bits generalizing i with
  | nil => simp [Operation.flagsWord]
  | cons b bits ih =>
    show (b.toNat + 2 * Operation.flagsWord bits).testBit i = _
    cases i with
    | zero => cases b <;> simp [Nat.testBit_zero, Nat.add_mod]
    | succ i =>
      rw [Nat.testBit_succ, List.getElem?_cons_succ, ← ih]
      congr 1
      cases b
      · simp
      · simp
        omega

/-- Every operation with flags writes which of its attributes are there. -/
theorem writesFlags_hasAttr (h : op.opcode.flagNames ≠ []) :
    WritesFlags m version op (Operation.flagsWord (op.opcode.flagNames.map op.hasAttr)) := by
  unfold WritesFlags opcodeFields Operation.flagHead
  cases hop : op.opcode <;> simp only [hop, Opcode.flagNames, ne_eq, not_true_eq_false] at h
  all_goals
    simp only [Opcode.flagNames, reduceCtorEq, if_true, if_false, List.nil_append,
      List.append_assoc, List.cons_append, List.map_cons, List.map_nil, Operation.flags]
    exact ⟨_, rfl⟩

/-- The flags word that is written is unique. -/
theorem word_unique {word word' : ℕ} (h : WritesFlags m version op word)
    (h' : WritesFlags m version op word') : word = word' := by
  obtain ⟨rest, hrest⟩ := h
  obtain ⟨rest', hrest'⟩ := h'
  have hcons := List.append_cancel_left (hrest.symm.trans hrest')
  injection hcons with hhead
  injection hhead with hbytes
  exact Varint.encode_injective hbytes

/-! ### The three lookups -/

/-- The first attribute decides for the printer. -/
theorem findBoolAttr_eq_some_true {attrs : Attributes} {name : String} :
    findBoolAttr attrs name = some true ↔
      (findAttr attrs name).isSome = true ∧ findAttr attrs name ≠ some (.bool false) := by
  unfold findBoolAttr
  cases h : findAttr attrs name with
  | none => simp
  | some a => cases a <;> simp

/-- An attribute is `false` only as a bool. -/
theorem isFalse_iff {a : Attribute} : a.isFalse = true ↔ a = .bool false := by
  cases a <;> simp [Attribute.isFalse]

/-- The verifier sees every attribute that the writer sees, unless it is `false`. -/
theorem flushToZeroOn_of_findAttr {attrs : Attributes} {a : Attribute}
    (h : findAttr attrs "flush_to_zero" = some a) (hfalse : a ≠ .bool false) :
    flushToZeroOn attrs = true := by
  obtain ⟨p, hp, rfl⟩ := Option.map_eq_some_iff.mp h
  have hname := List.find?_some hp
  refine List.any_eq_true.mpr ⟨p, List.mem_of_find?_eq_some hp, ?_⟩
  rw [Bool.and_eq_true, Bool.not_eq_true', Bool.eq_false_iff]
  exact ⟨hname, fun h => hfalse (isFalse_iff.mp h)⟩

/-- Without the attribute nothing is flushed. -/
theorem flushToZeroOn_of_none {attrs : Attributes} (h : findAttr attrs "flush_to_zero" = none) :
    flushToZeroOn attrs = false := by
  rw [findAttr, Option.map_eq_none_iff, List.find?_eq_none] at h
  refine List.any_eq_false.mpr fun p hp => ?_
  rw [Bool.and_eq_true]
  exact fun hboth => h p hp hboth.1

/-- A keyword is printed for an attribute that is set. -/
theorem mem_keyword {name name' : String} :
    name ∈ op.keyword name' ↔ name = name' ∧ findBoolAttr op.attributes name' = some true := by
  unfold Operation.keyword
  split
  · simp [*]
  · simp [*]

/-- The printer shows the attributes that are on, except those of a `for`. -/
theorem mem_printedFlags {name : String} (h : name ∈ op.opcode.flagNames) :
    name ∈ op.printedFlags ↔
      op.opcode ≠ .forOp ∧ findBoolAttr op.attributes name = some true := by
  unfold Operation.printedFlags
  cases hop : op.opcode <;>
    simp only [hop, Opcode.flagNames, List.mem_cons, List.not_mem_nil, or_false] at h
  all_goals
    first
    | (subst h; simp [mem_keyword])
    | (rcases h with rfl | rfl <;> simp [mem_keyword])

/-- The bit that is written for a flag attribute says whether it is there. -/
theorem testBit_flags {name : String} {i : ℕ} (h : op.opcode.flagNames[i]? = some name) :
    (Operation.flagsWord (op.opcode.flagNames.map op.hasAttr)).testBit i = op.hasAttr name := by
  rw [flagsWord_testBit, List.getElem?_map, h]
  rfl

/-- **When the writer, the printer and the verifier agree.** -/
theorem flagsAgree_iff (m : Module) (version : BytecodeVersion) (op : Operation) :
    FlagsAgree m version op ↔ FlagsHonest op := by
  constructor
  · intro h
    -- what the written word says is what is printed
    have hprinted : ∀ name ∈ op.opcode.flagNames,
        (op.hasAttr name = true ↔ name ∈ op.printedFlags) := by
      intro name hname
      obtain ⟨i, hi⟩ := List.mem_iff_getElem?.mp hname
      obtain ⟨word, hword, hbit, -⟩ := h i name hi
      have hwritten : WritesFlags m version op
        (Operation.flagsWord (op.opcode.flagNames.map op.hasAttr)) :=
        writesFlags_hasAttr (List.ne_nil_of_mem hname)
      rw [word_unique hword hwritten, testBit_flags hi] at hbit
      exact hbit
    refine ⟨?_, ?_⟩
    -- an attribute that is false is present, so its bit would be set
    · intro name hname hfalse
      have hhas : op.hasAttr name = true := by rw [Operation.hasAttr, hfalse]; rfl
      have hon := ((mem_printedFlags hname).mp ((hprinted name hname).mp hhas)).2
      exact (findBoolAttr_eq_some_true.mp hon).2 hfalse
    -- `unsigned_cmp` is printed for `for` whenever the attribute is there
    · intro hfor
      have hname : "unsigned_cmp" ∈ op.opcode.flagNames := by rw [hfor]; decide
      by_contra hsome
      have hhas : op.hasAttr "unsigned_cmp" = true := Option.isSome_iff_ne_none.mpr hsome
      exact ((mem_printedFlags hname).mp ((hprinted _ hname).mp hhas)).1 hfor
  · rintro ⟨hfalse, hunsigned⟩ i name hi
    have hname := List.mem_of_getElem? hi
    refine ⟨_, writesFlags_hasAttr (List.ne_nil_of_mem hname), ?_, ?_⟩
    -- a bit is set when the attribute is present, and printed when it is true
    · rw [testBit_flags hi, mem_printedFlags hname, findBoolAttr_eq_some_true]
      constructor
      · intro hhas
        refine ⟨fun hfor => ?_, hhas, hfalse name hname⟩
        obtain rfl : name = "unsigned_cmp" := by
          rw [hfor] at hname
          exact List.mem_singleton.mp hname
        rw [Operation.hasAttr, hunsigned hfor] at hhas
        cases hhas
      · exact fun h => h.2.1
    · rintro rfl
      rw [testBit_flags hi]
      constructor
      · intro hhas
        obtain ⟨a, ha⟩ := Option.isSome_iff_exists.mp hhas
        exact flushToZeroOn_of_findAttr ha fun heq => hfalse _ hname (heq ▸ ha)
      · intro hon
        by_contra hnone
        rw [flushToZeroOn_of_none (Option.not_isSome_iff_eq_none.mp hnone)] at hon
        cases hon

/-- An addition whose `flush_to_zero` is off. -/
def addWithoutFlush : Operation where
  id := 0
  opcode := .addF
  operands := [0, 1]
  resultTypes := [.tile ⟨[], .scalar .f32⟩]
  attributes := [("rounding_mode", .integer 0 (.scalar .i32)), ("flush_to_zero", .bool false)]
  regions := []
  location := .unknown

/-- The module of the example. -/
def addModule : Module where
  producer := none
  values := [⟨.tile ⟨[], .scalar .f32⟩, .blockArg 0 0⟩, ⟨.tile ⟨[], .scalar .f32⟩, .blockArg 0 1⟩]
  functions := []
  globals := []

/-- It is written as on, printed and verified as off. -/
theorem not_flagsAgree_addWithoutFlush :
    WritesFlags addModule .v13_2 addWithoutFlush 1 ∧ addWithoutFlush.printedFlags = [] ∧
      flushToZeroOn addWithoutFlush.attributes = false ∧
        ¬FlagsAgree addModule .v13_2 addWithoutFlush := by
  have hwrites : WritesFlags addModule .v13_2 addWithoutFlush 1 := ⟨_, rfl⟩
  refine ⟨hwrites, by decide, by decide, ?_⟩
  intro h
  obtain ⟨word, hword, hprinted, -⟩ := h 0 "flush_to_zero" rfl
  rw [word_unique hword hwrites] at hprinted
  exact absurd (hprinted.mp (by decide)) (by decide)

end CudaOxide.TileIr
