import CudaOxide.TileIr.Verify

/-!
# The numbers of operands

A walk over a function body yields a stream of definitions and uses.  Writer, reader and verifier
walk the same tree and differ in what they do at an operation:

* `writerWalk` — the operands that are encoded, then the regions that are encoded, then the results
  that have a value.
* `readerWalk` — the same, with the results a reader allocates.
* `verifierWalk` — all operands, then the results, then all regions.

`writeOperation_follows` and `verifyBcOperation_eq` say that the writer and the verifier do what
their streams say.  `functionBody_numbered_iff` compares the streams: a body that passes the
verification is numbered as it is read, if and only if no operation is used inside its own regions.
-/

namespace CudaOxide.TileIr

open CudaOxide.Lib Scoping Item

/-! ### Walks -/

/-- What a walk yields before and after the regions of an operation, and whose regions it enters. -/
structure Walk where
  before : Operation → List (Item Value)
  enters : Opcode → Bool
  after : Operation → List (Item Value)

namespace Walk

variable (w : Walk)

mutual

/-- The items of an operation: before it, inside it and behind it. -/
def operation : Operation → List (Item Value)
  | ⟨id, opcode, operands, resultTypes, attributes, regions, location⟩ =>
    let op : Operation := ⟨id, opcode, operands, resultTypes, attributes, regions, location⟩
    w.before op ++ (if w.enters opcode then inRegions regions else []) ++ w.after op

/-- The items of regions, in order. -/
def inRegions : List Region → List (Item Value)
  | [] => []
  | r :: rs => inRegion r ++ inRegions rs

/-- The items of a region. -/
def inRegion : Region → List (Item Value)
  | ⟨blocks⟩ => inBlocks blocks

/-- Blocks in order, each a scope of its own. -/
def inBlocks : List Block → List (Item Value)
  | [] => []
  | b :: bs => .block (inBlock b) :: inBlocks bs

/-- The arguments of a block, then its operations. -/
def inBlock : Block → List (Item Value)
  | ⟨args, ops⟩ => (args.map fun a => define (some a.1)) ++ inOperations ops

/-- The items of operations, in order. -/
def inOperations : List Operation → List (Item Value)
  | [] => []
  | op :: ops => operation op ++ inOperations ops

end

/-- The stream of a function body. -/
def body (f : Operation) : List (Item Value) := f.entryBlock?.elim [] w.inBlock

/-- What a walk yields inside an operation. -/
def inside (op : Operation) : List (Item Value) :=
  if w.enters op.opcode then w.inRegions op.regions else []

/-- The items of an operation, in three parts. -/
theorem operation_eq (op : Operation) :
    w.operation op = w.before op ++ w.inside op ++ w.after op := by
  cases op
  rfl

mutual

/-- The operations that a walk meets, from the outside in. -/
def operations : Operation → List Operation
  | ⟨id, opcode, operands, resultTypes, attributes, regions, location⟩ =>
    ⟨id, opcode, operands, resultTypes, attributes, regions, location⟩ ::
      if w.enters opcode then operationsOfRegions regions else []

/-- The operations of regions. -/
def operationsOfRegions : List Region → List Operation
  | [] => []
  | r :: rs => operationsOfRegion r ++ operationsOfRegions rs

/-- The operations of a region. -/
def operationsOfRegion : Region → List Operation
  | ⟨blocks⟩ => operationsOfBlocks blocks

/-- The operations of blocks. -/
def operationsOfBlocks : List Block → List Operation
  | [] => []
  | b :: bs => operationsOfBlock b ++ operationsOfBlocks bs

/-- The operations of a block. -/
def operationsOfBlock : Block → List Operation
  | ⟨_, ops⟩ => operationsOfList ops

/-- The operations of a list and those inside them. -/
def operationsOfList : List Operation → List Operation
  | [] => []
  | op :: ops => operations op ++ operationsOfList ops

end

/-- An operation and those inside it, where the walk enters. -/
theorem operations_eq (op : Operation) :
    w.operations op =
      op :: if w.enters op.opcode then w.operationsOfRegions op.regions else [] := by
  cases op
  rfl

/-- Regions are walked block by block. -/
theorem inRegions_eq (rs : List Region) :
    w.inRegions rs = (rs.flatMap (·.blocks)).map fun b => .block (w.inBlock b) := by
  have hblocks : ∀ bs : List Block, w.inBlocks bs = bs.map fun b => .block (w.inBlock b) := by
    intro bs
    induction bs with
    | nil => rfl
    | cons b bs ih => rw [inBlocks, ih, List.map_cons]
  induction rs with
  | nil => rfl
  | cons r rs ih =>
    obtain ⟨blocks⟩ := r
    rw [inRegions, ih, inRegion, hblocks, List.flatMap_cons, List.map_append]

/-- The operations of regions, block by block. -/
theorem operationsOfRegions_eq (rs : List Region) :
    w.operationsOfRegions rs = (rs.flatMap (·.blocks)).flatMap w.operationsOfBlock := by
  have hblocks : ∀ bs : List Block, w.operationsOfBlocks bs = bs.flatMap w.operationsOfBlock := by
    intro bs
    induction bs with
    | nil => rfl
    | cons b bs ih => rw [operationsOfBlocks, ih, List.flatMap_cons]
  induction rs with
  | nil => rfl
  | cons r rs ih =>
    obtain ⟨blocks⟩ := r
    rw [operationsOfRegions, ih, operationsOfRegion, hblocks, List.flatMap_cons,
      List.flatMap_append]

/-- A block is walked from its arguments on. -/
theorem inBlock_eq (b : Block) :
    w.inBlock b = (b.args.map fun a => define (some a.1)) ++ w.inOperations b.ops := by
  cases b
  rfl

/-- The operations of a block. -/
theorem operationsOfBlock_eq (b : Block) : w.operationsOfBlock b = w.operationsOfList b.ops := by
  cases b
  rfl

/-- Regions consist of scopes. -/
theorem onlyBlocks_inRegions (rs : List Region) : OnlyBlocks (w.inRegions rs) := by
  intro s hs
  rw [inRegions_eq] at hs
  obtain ⟨b, -, rfl⟩ := List.mem_map.mp hs
  exact ⟨_, rfl⟩

/-- An operation of a list is inside one of its members. -/
theorem mem_operationsOfList {o : Operation} {ops : List Operation} :
    o ∈ w.operationsOfList ops ↔ ∃ op ∈ ops, o ∈ w.operations op := by
  induction ops with
  | nil => simp [operationsOfList]
  | cons op ops ih => simp [operationsOfList, ih]

/-- The operations of a function body. -/
def bodyOperations (f : Operation) : List Operation := f.entryBlock?.elim [] w.operationsOfBlock

end Walk

/-- The blocks of all regions. -/
def Operation.blocks (op : Operation) : List Block := op.regions.flatMap (·.blocks)

/-- An operation inside another is smaller. -/
theorem Operation.sizeOf_lt {op o : Operation} {b : Block} (hb : b ∈ op.blocks) (ho : o ∈ b.ops) :
    sizeOf o < sizeOf op := by
  obtain ⟨r, hr, hb⟩ := List.mem_flatMap.mp hb
  cases op
  cases r
  cases b
  have h1 := List.sizeOf_lt_of_mem hr
  have h2 := List.sizeOf_lt_of_mem hb
  have h3 := List.sizeOf_lt_of_mem ho
  simp only [Operation.mk.sizeOf_spec, Region.mk.sizeOf_spec, Block.mk.sizeOf_spec] at *
  omega

/-- Induction from the operations inside an operation. -/
theorem Operation.induct {P : Operation → Prop}
    (step : ∀ op, (∀ b ∈ op.blocks, ∀ o ∈ b.ops, P o) → P op) (op : Operation) : P op :=
  step op fun _ hb o ho =>
    have := Operation.sizeOf_lt hb ho
    Operation.induct step o
termination_by sizeOf op

section

variable (m : Module) (version : BytecodeVersion)

/-- The results a reader allocates: their number is in the stream, or fixed by the opcode. -/
def readerResults (op : Operation) : List (Option Value) :=
  (List.range (op.opcode.fixedResultCount.getD op.resultTypes.length)).map (m.findOpResult op.id)

/-- How the writer goes through an operation. -/
def writerWalk : Walk where
  before op := (encodedOperands (opFields m version op)).map use
  enters := Opcode.writesRegions
  after op := (m.results op).reduceOption.map fun v => define (some v)

/-- How the reader goes through an operation. -/
def readerWalk : Walk where
  before op := (encodedOperands (opFields m version op)).map use
  enters := Opcode.writesRegions
  after op := (readerResults m op).map define

/-- How the verifier goes through an operation. -/
def verifierWalk : Walk where
  before op := op.operands.map use ++ (m.results op).map define
  enters _ := true
  after _ := []

end

/-! ### The writer -/

/-- The operands of pieces in a row. -/
@[simp] theorem operandIndices_append (ps qs : List Piece) :
    operandIndices (ps ++ qs) = operandIndices ps ++ operandIndices qs := List.filterMap_append

namespace Writer

/-- The writer does what a stream says: it writes the numbers of the uses, and stops where one has
none, or where `S` allows it. -/
structure Follows (S : Stop WriteError → Prop) (items : List (Item Value)) (w : Writer) : Prop where
  ok : ∀ {ctx out}, w ctx = .ok out →
    writtenAll items ctx.numbering = some (operandIndices out.1) ∧
      out.2.numbering = runAll items ctx.numbering
  error : ∀ {ctx s}, w ctx = .error s →
    (writtenAll items ctx.numbering = none ∧ ∃ e : WriteError, s = .err e ∧ e.IsMissingIndex) ∨ S s

variable {S : Stop WriteError → Prop} {items more : List (Item Value)} {w w' : Writer}

/-- Following is a property of the items. -/
theorem Follows.congr (h : items = more) (hw : w.Follows S items) : w.Follows S more := h ▸ hw

/-- Pieces without operands follow no items. -/
theorem Follows.put {ps : List Piece} (h : operandIndices ps = []) : (put ps).Follows S [] where
  ok heq := by
    cases heq
    rw [h]
    exact ⟨rfl, rfl⟩
  error heq := by cases heq

/-- Nothing follows no items. -/
theorem Follows.nil : (Writer.put []).Follows S [] := put rfl

/-- A number follows no items. -/
theorem Follows.number {n : ℕ} : (number n).Follows S [] := put rfl

/-- A table entry follows no items. -/
theorem Follows.entered {a : StateM Tables Bytes} : (entered a).Follows S [] where
  ok heq := by
    cases heq
    exact ⟨rfl, rfl⟩
  error heq := by cases heq

/-- A change that keeps the numbering follows no items. -/
theorem Follows.modify {f : WriterCtx → WriterCtx}
    (h : ∀ ctx, (f ctx).numbering = ctx.numbering) : (modify f).Follows S [] where
  ok heq := by
    cases heq
    exact ⟨rfl, h _⟩
  error heq := by cases heq

/-- A failure follows all items. -/
theorem Follows.fail {s : Stop WriteError} (hs : S s) : (fail s).Follows S items where
  ok heq := by cases heq
  error heq := by
    cases heq
    exact Or.inr hs

/-- An operand follows its use. -/
theorem Follows.operand {v : Value} {missing : WriteError} (h : missing.IsMissingIndex) :
    (operand v missing).Follows S [use v] where
  ok {ctx out} heq := by
    unfold Writer.operand at heq
    cases hget : ctx.numbering.get? v with
    | some index =>
      rw [hget] at heq
      cases heq
      exact ⟨by simp [writtenAll, written, hget, operandIndices], rfl⟩
    | none =>
      rw [hget] at heq
      cases heq
  error {ctx s} heq := by
    unfold Writer.operand at heq
    cases hget : ctx.numbering.get? v with
    | some index =>
      rw [hget] at heq
      cases heq
    | none =>
      rw [hget] at heq
      cases heq
      exact Or.inl ⟨by simp [writtenAll, written, hget], missing, rfl, h⟩

/-- An assignment follows its definition. -/
theorem Follows.assign {v : Value} : (assign v).Follows S [define (some v)] where
  ok heq := by
    cases heq
    exact ⟨rfl, rfl⟩
  error heq := by cases heq

/-- Writers in a row follow items in a row. -/
theorem Follows.seq (h : w.Follows S items) (h' : w'.Follows S more) :
    (w.seq w').Follows S (items ++ more) where
  ok {ctx out} heq := by
    obtain ⟨first, hfirst, heq⟩ := Run.bind_eq_ok.mp heq
    obtain ⟨rest, hrest, heq⟩ := Run.bind_eq_ok.mp heq
    cases heq
    obtain ⟨hw, hn⟩ := h.ok hfirst
    obtain ⟨hw', hn'⟩ := h'.ok hrest
    rw [hn] at hw' hn'
    rw [writtenAll_append, runAll_append, hw, Option.bind_some, hw', Option.map_some,
      operandIndices_append]
    exact ⟨rfl, hn'⟩
  error {ctx s} heq := by
    cases hfirst : w ctx with
    | error s' =>
      have hs : s' = s := by simpa [Writer.seq, hfirst, bind, Except.bind] using heq
      subst hs
      refine (h.error hfirst).imp_left fun hstopped => ⟨?_, hstopped.2⟩
      rw [writtenAll_append, hstopped.1]
      rfl
    | ok first =>
      obtain ⟨hw, hn⟩ := h.ok hfirst
      cases hrest : w' first.2 with
      | error s' =>
        have hs : s' = s := by simpa [Writer.seq, hfirst, hrest, bind, Except.bind] using heq
        subst hs
        refine (h'.error hrest).imp_left fun hstopped => ⟨?_, hstopped.2⟩
        rw [hn] at hstopped
        rw [writtenAll_append, hw, Option.bind_some, hstopped.1]
        rfl
      | ok rest => simp [Writer.seq, hfirst, hrest, bind, Except.bind, pure, Except.pure] at heq

/-- A first writer follows the first items. -/
theorem Follows.cons {ws : List Writer} (h : w.Follows S items)
    (hs : (Writer.all ws).Follows S more) : (Writer.all (w :: ws)).Follows S (items ++ more) :=
  h.seq hs

/-- A scope follows the items of its block. -/
theorem Follows.scope (h : w.Follows S items) : w.scope.Follows S [.block items] := by
  refine ⟨fun {ctx out} heq => ?_, fun {ctx s} heq => ?_⟩
  · obtain ⟨body, hbody, heq⟩ := Run.bind_eq_ok.mp heq
    cases heq
    obtain ⟨hw, hn⟩ := h.ok hbody
    rw [writtenAll_block, hw, runAll, runAll, Item.run, ← hn]
    exact ⟨rfl, rfl⟩
  · rw [writtenAll_block]
    cases hbody : w ctx with
    | error s' =>
      have hs : s' = s := by simpa [Writer.scope, hbody, bind, Except.bind] using heq
      subst hs
      exact h.error hbody
    | ok body => simp [Writer.scope, hbody, bind, Except.bind, pure, Except.pure] at heq

/-- Parts of the writer, each with its stream. -/
theorem Follows.all {ι : Type} {xs : List ι} {f : ι → Writer} {g : ι → List (Item Value)}
    (h : ∀ x ∈ xs, (f x).Follows S (g x)) : (Writer.all (xs.map f)).Follows S (xs.flatMap g) := by
  induction xs with
  | nil => exact nil
  | cons x xs ih =>
    exact (h x List.mem_cons_self).seq (ih fun y hy => h y (List.mem_cons_of_mem _ hy))

end Writer

section

variable {casts : FloatCasts} {m : Module} {version : BytecodeVersion} {S : Stop WriteError → Prop}

/-- The uses of a field. -/
def Field.items : Field → List (Item Value)
  | operand v _ => [use v]
  | _ => []

/-- The items of fields are the uses of their operands. -/
theorem flatMap_items (fs : List Field) : fs.flatMap Field.items =
    (encodedOperands fs).map use := by
  induction fs with
  | nil => rfl
  | cons f fs ih =>
    rw [List.flatMap_cons, ih]
    cases f <;> rfl

/-- A sound field follows its items. -/
theorem writeField_follows {op : Operation} {f : Field} (hsound : f.Sound op)
    (hS : ∀ s, f = .stop s → S s) : (writeField casts f).Follows S f.items := by
  cases f with
  | bytes bs => exact .put rfl
  | typeIndex ty => exact .entered
  | attr a => exact .entered
  | selfContained a => exact .entered
  | operand v missing => exact .operand hsound.2
  | stop s => exact .fail (hS s rfl)

/-- The writer may stop where the fields of an operation tell it to. -/
def StopsAt (m : Module) (version : BytecodeVersion) (S : Stop WriteError → Prop)
    (ops : List Operation) : Prop :=
  ∀ op ∈ ops, ∀ s, Field.stop s ∈ opFields m version op → S s

/-- The first operations stop for allowed reasons. -/
theorem StopsAt.left {ops ops' : List Operation} (h : StopsAt m version S (ops ++ ops')) :
    StopsAt m version S ops := fun op hop => h op (List.mem_append_left _ hop)

/-- The last operations stop for allowed reasons. -/
theorem StopsAt.right {ops ops' : List Operation} (h : StopsAt m version S (ops ++ ops')) :
    StopsAt m version S ops' := fun op hop => h op (List.mem_append_right _ hop)

/-- The fields of an operation follow the uses of its operands. -/
theorem writeFields_follows {op : Operation} (hS : StopsAt m version S [op]) :
    (Writer.all ((opFields m version op).map (writeField casts))).Follows S
      ((encodedOperands (opFields m version op)).map use) := by
  rw [← flatMap_items]
  apply Writer.Follows.all
  intro f hf
  apply writeField_follows (opFields_sound f hf)
  rintro s rfl
  exact hS op List.mem_cons_self s hf

/-- An argument follows its definition. -/
theorem writeArg_follows (arg : Value × Ty) :
    (writeArg arg).Follows S [define (some arg.1)] :=
  Writer.Follows.entered.seq (Writer.Follows.assign.seq .nil)

/-- The results follow their definitions. -/
theorem registerResults_follows (version : BytecodeVersion) (op : Operation) :
    (registerResults m op).Follows S ((writerWalk m version).after op) := by
  show (registerResults m op).Follows S ((m.results op).reduceOption.map fun v => define (some v))
  rw [List.map_eq_flatMap]
  apply Writer.Follows.all
  exact fun v _ => Writer.Follows.assign

/-- An operation is written in five parts. -/
theorem writeOperation_eq (op : Operation) :
    writeOperation casts m version op =
      Writer.all
        [.modify fun ctx => { ctx with tables := (DebugInfo.recordOp op.location ctx.tables).2 },
        .number op.opcode.asU16, .all ((opFields m version op).map (writeField casts)),
        if op.opcode.writesRegions then
          (Writer.number op.regions.length).seq (writeRegions casts m version op.regions)
        else .put [],
        registerResults m op] := by
  cases op
  rfl

/-- An operation, given its regions. -/
theorem writeOperation_step {op : Operation}
    (hS : StopsAt m version S ((writerWalk m version).operations op))
    (hregions : StopsAt m version S ((writerWalk m version).operationsOfRegions op.regions) →
      (writeRegions casts m version op.regions).Follows S
        ((writerWalk m version).inRegions op.regions)) :
    (writeOperation casts m version op).Follows S ((writerWalk m version).operation op) := by
  rw [Walk.operations_eq] at hS
  have hop : StopsAt m version S [op] := by
    intro o ho
    obtain rfl := List.mem_singleton.mp ho
    exact hS o List.mem_cons_self
  have hinner (hw : op.opcode.writesRegions = true) :
      StopsAt m version S ((writerWalk m version).operationsOfRegions op.regions) := by
    intro o ho
    apply hS o
    rw [if_pos (show (writerWalk m version).enters op.opcode = true from hw)]
    exact List.mem_cons_of_mem _ ho
  have hinside : (if op.opcode.writesRegions then
      (Writer.number op.regions.length).seq (writeRegions casts m version op.regions)
      else Writer.put []).Follows S ((writerWalk m version).inside op) := by
    unfold Walk.inside
    show Writer.Follows S (if op.opcode.writesRegions then _ else _) _
    split
    · rename_i hw
      exact Writer.Follows.number.seq (hregions (hinner hw))
    · exact .nil
  rw [Walk.operation_eq, writeOperation_eq]
  refine Writer.Follows.congr ?_ (Writer.Follows.cons (Writer.Follows.modify fun _ => rfl)
    (Writer.Follows.cons Writer.Follows.number (Writer.Follows.cons (writeFields_follows hop)
      (Writer.Follows.cons hinside (Writer.Follows.cons
        (registerResults_follows version op) .nil)))))
  rw [List.nil_append, List.nil_append, List.append_nil, List.append_assoc]
  rfl

mutual

/-- An operation follows its items. -/
theorem writeOperation_follows : (op : Operation) →
    StopsAt m version S ((writerWalk m version).operations op) →
    (writeOperation casts m version op).Follows S ((writerWalk m version).operation op)
  | ⟨_, _, _, _, _, regions, _⟩, hS => writeOperation_step hS (writeRegions_follows regions)

/-- Regions follow their items. -/
theorem writeRegions_follows : (rs : List Region) →
    StopsAt m version S ((writerWalk m version).operationsOfRegions rs) →
    (writeRegions casts m version rs).Follows S ((writerWalk m version).inRegions rs)
  | [], _ => .nil
  | r :: rs, hS => (writeRegion_follows r hS.left).seq (writeRegions_follows rs hS.right)

/-- A region follows its items. -/
theorem writeRegion_follows : (r : Region) →
    StopsAt m version S ((writerWalk m version).operationsOfRegion r) →
    (writeRegion casts m version r).Follows S ((writerWalk m version).inRegion r)
  | ⟨blocks⟩, hS => Writer.Follows.number.seq (writeBlocks_follows blocks hS)

/-- Blocks follow their items. -/
theorem writeBlocks_follows : (bs : List Block) →
    StopsAt m version S ((writerWalk m version).operationsOfBlocks bs) →
    (writeBlocks casts m version bs).Follows S ((writerWalk m version).inBlocks bs)
  | [], _ => .nil
  | b :: bs, hS => (writeBlock_follows b hS.left).seq (writeBlocks_follows bs hS.right)

/-- A block follows its items. -/
theorem writeBlock_follows : (b : Block) →
    StopsAt m version S ((writerWalk m version).operationsOfBlock b) →
    (writeBlock casts m version b).Follows S [.block ((writerWalk m version).inBlock b)]
  | ⟨args, ops⟩, hS => by
    have hargs : (Writer.all (args.map writeArg)).Follows S
        (args.map fun a => define (some a.1)) := by
      rw [List.map_eq_flatMap]
      exact Writer.Follows.all fun arg _ => writeArg_follows arg
    rw [writeBlock, Walk.inBlock]
    apply Writer.Follows.scope
    refine Writer.Follows.congr ?_ (Writer.Follows.cons Writer.Follows.number
      (Writer.Follows.cons hargs (Writer.Follows.cons Writer.Follows.number
        (Writer.Follows.cons (writeOperations_follows ops hS) .nil))))
    simp

/-- Operations follow their items. -/
theorem writeOperations_follows : (ops : List Operation) →
    StopsAt m version S ((writerWalk m version).operationsOfList ops) →
    (writeOperations casts m version ops).Follows S ((writerWalk m version).inOperations ops)
  | [], _ => .nil
  | op :: ops, hS => (writeOperation_follows op hS.left).seq (writeOperations_follows ops hS.right)

end

end

/-! ### The verifier -/

/-- The results of an operation are as many as a reader allocates, and each has a value. -/
def ResultsOk (m : Module) (op : Operation) : Prop :=
  (∀ n, op.opcode.fixedResultCount = some n → op.resultTypes.length = n) ∧
    ∀ r ∈ m.results op, r.isSome

/-- A part of the verifier does what a stream says: it numbers like the stream, and finds no errors
where every use has a number and the results of the operations it meets are as they should be. -/
structure Checks (m : Module) (items : List (Item Value)) (ops : List Operation)
    (f : BcState → BcState) : Prop where
  numbering : ∀ s, (f s).numbering = runAll items s.numbering
  errors : ∀ s, (f s).errors = [] ↔
    s.errors = [] ∧ (writtenAll items s.numbering).isSome ∧ ∀ op ∈ ops, ResultsOk m op

section Checks

variable {m : Module} {items more : List (Item Value)} {ops ops' : List Operation}
  {f g : BcState → BcState} {function : Attribute ⊕ OpId}

/-- Doing nothing checks nothing. -/
theorem Checks.id : Checks m [] [] id where
  numbering _ := rfl
  errors s := by simp [writtenAll]

/-- Checks in a row. -/
theorem Checks.comp (hg : Checks m more ops' g) (hf : Checks m items ops f) :
    Checks m (items ++ more) (ops ++ ops') fun s => g (f s) where
  numbering s := by rw [hg.numbering, hf.numbering, runAll_append]
  errors s := by
    rw [hg.errors, hf.errors, hf.numbering, isSome_writtenAll_append, List.forall_mem_append]
    constructor
    · rintro ⟨⟨he, hw, ho⟩, hw', ho'⟩
      exact ⟨he, ⟨hw, hw'⟩, ho, ho'⟩
    · rintro ⟨he, ⟨hw, hw'⟩, ho, ho'⟩
      exact ⟨⟨he, hw, ho⟩, hw', ho'⟩

/-- Assigning the results checks nothing. -/
theorem Checks.assign (rs : List (Option Value)) :
    Checks m (rs.map define) [] fun s => rs.foldl .assign s := by
  have key : ∀ s : BcState, rs.foldl .assign s = ⟨rs.foldl .assign s.numbering, s.errors⟩ := by
    induction rs with
    | nil => exact fun _ => rfl
    | cons r rs ih => exact fun s => ih (s.assign r)
  refine ⟨fun s => ?_, fun s => ?_⟩
  · rw [key, runAll_defines]
  · rw [key, writtenAll_defines]
    simp

/-- The check of a block, in its scope. -/
theorem Checks.scope (hf : Checks m items ops f) : Checks m [.block items] ops fun s =>
    { f s with numbering := (f s).numbering.close s.numbering.next } where
  numbering s := by
    rw [runAll, runAll, Item.run, ← hf.numbering]
  errors s := by
    rw [writtenAll_block]
    exact hf.errors s

/-- No entry fails when all pass. -/
theorem filterMap_zipIdx_eq_nil {α β : Type} {xs : List α} (p : α → Bool) (e : α × ℕ → β) :
    (xs.zipIdx.filterMap fun q => if p q.1 then none else some (e q)) = [] ↔ ∀ x ∈ xs, p x := by
  rw [List.filterMap_eq_nil_iff]
  constructor
  · intro h x hx
    obtain ⟨i, hi⟩ := List.mem_iff_getElem?.mp hx
    have hq := h (x, i) (List.mk_mem_zipIdx_iff_getElem?.mpr hi)
    by_contra hp
    simp [hp] at hq
  · intro h q hq
    rw [if_pos (h q.1 (List.fst_mem_of_mem_zipIdx hq))]

/-- When an operation has no errors. -/
theorem operationErrors_eq_nil {op : Operation} {s : BcState} :
    operationErrors m function op s = [] ↔
      (∀ v ∈ op.operands, (s.numbering.get? v).isSome) ∧ ResultsOk m op := by
  have hcount : resultCountErrors function op = [] ↔
      ∀ n, op.opcode.fixedResultCount = some n → op.resultTypes.length = n := by
    unfold resultCountErrors
    cases op.opcode.fixedResultCount <;> simp
  rw [operationErrors, List.append_eq_nil_iff, List.append_eq_nil_iff, hcount, and_assoc]
  refine and_congr ?_ (and_congr_right' ?_)
  · exact filterMap_zipIdx_eq_nil (fun v => (s.numbering.get? v).isSome) _
  · exact filterMap_zipIdx_eq_nil Option.isSome _

/-- The report of an operation checks its operands. -/
theorem Checks.report (function : Attribute ⊕ OpId) (op : Operation) :
    Checks m (op.operands.map use) [op] fun s =>
    s.report (operationErrors m function op s) where
  numbering s := by rw [runAll_uses]; rfl
  errors s := by
    rw [isSome_writtenAll_uses, BcState.report, List.append_eq_nil_iff, operationErrors_eq_nil]
    simp

/-- An operation is verified in three parts. -/
theorem verifyBcOperation_eq (op : Operation) (s : BcState) :
    verifyBcOperation m function op s = verifyBcRegions m function op.regions
      ((m.results op).foldl .assign (s.report (operationErrors m function op s))) := by
  cases op
  rfl

/-- An operation, given its regions. -/
theorem verifyBcOperation_step {op : Operation}
    (hregions : Checks m ((verifierWalk m).inRegions op.regions)
      ((verifierWalk m).operationsOfRegions op.regions) (verifyBcRegions m function op.regions)) :
    Checks m ((verifierWalk m).operation op) ((verifierWalk m).operations op)
      (verifyBcOperation m function op) := by
  have hall := hregions.comp ((Checks.assign (m.results op)).comp (Checks.report function op))
  have heq : verifyBcOperation m function op = fun s => verifyBcRegions m function op.regions
      ((m.results op).foldl .assign (s.report (operationErrors m function op s))) :=
    funext (verifyBcOperation_eq op)
  rw [Walk.operation_eq, Walk.operations_eq, heq]
  simpa [verifierWalk, Walk.inside] using hall

mutual

/-- An operation checks its items. -/
theorem verifyBcOperation_checks : (op : Operation) →
    Checks m ((verifierWalk m).operation op) ((verifierWalk m).operations op)
      (verifyBcOperation m function op)
  | ⟨_, _, _, _, _, regions, _⟩ => verifyBcOperation_step (verifyBcRegions_checks regions)

/-- Regions check their items. -/
theorem verifyBcRegions_checks : (rs : List Region) →
    Checks m ((verifierWalk m).inRegions rs) ((verifierWalk m).operationsOfRegions rs)
      (verifyBcRegions m function rs)
  | [] => .id
  | r :: rs => (verifyBcRegions_checks rs).comp (verifyBcRegion_checks r)

/-- A region checks its items. -/
theorem verifyBcRegion_checks : (r : Region) →
    Checks m ((verifierWalk m).inRegion r) ((verifierWalk m).operationsOfRegion r)
      (verifyBcRegion m function r)
  | ⟨blocks⟩ => verifyBcBlocks_checks blocks

/-- Blocks check their items. -/
theorem verifyBcBlocks_checks : (bs : List Block) →
    Checks m ((verifierWalk m).inBlocks bs) ((verifierWalk m).operationsOfBlocks bs)
      (verifyBcBlocks m function bs)
  | [] => .id
  | b :: bs => (verifyBcBlocks_checks bs).comp (verifyBcBlock_checks b)

/-- A block checks its items. -/
theorem verifyBcBlock_checks : (b : Block) →
    Checks m [.block ((verifierWalk m).inBlock b)] ((verifierWalk m).operationsOfBlock b)
      (verifyBcBlock m function b)
  | ⟨args, ops⟩ => by
    have hall := (verifyBcOperations_checks ops).comp (Checks.assign (args.map fun a => some a.1))
    rw [List.map_map] at hall
    exact hall.scope

/-- Operations check their items. -/
theorem verifyBcOperations_checks : (ops : List Operation) →
    Checks m ((verifierWalk m).inOperations ops) ((verifierWalk m).operationsOfList ops)
      (verifyBcOperations m function ops)
  | [] => .id
  | op :: ops => (verifyBcOperations_checks ops).comp (verifyBcOperation_checks op)

end

end Checks

/-! ### Verifier and writer -/

section Compare

variable {m : Module} {version : BytecodeVersion}

/-- No operand that is encoded inside an operation is a result of that operation. -/
def OwnResultsUnused (m : Module) (version : BytecodeVersion) (op : Operation) : Prop :=
  ∀ v ∈ usesAll ((writerWalk m version).inside op), some v ∉ m.results op

instance (op : Operation) : Decidable (OwnResultsUnused m version op) :=
  inferInstanceAs (Decidable (∀ v ∈ usesAll _, some v ∉ m.results op))

/-- The second stream defines no more names than the first one, and needs no more. -/
def Refines (ss ts : List (Item Value)) : Prop :=
  (∀ v ∈ definesAll ts, v ∈ definesAll ss) ∧ Admits ss ts

/-- Nothing refines nothing. -/
theorem Refines.nil : Refines [] [] := ⟨fun _ hv => hv, Admits.nil⟩

/-- Refinement of items in a row. -/
theorem Refines.append {ss ts ss' ts' : List (Item Value)} (h : Refines ss ts)
    (h' : Refines ss' ts') : Refines (ss ++ ss') (ts ++ ts') := by
  refine ⟨fun v hv => ?_, h.2.append h'.2⟩
  rw [definesAll_append, List.mem_append] at hv ⊢
  exact hv.imp (h.1 v) (h'.1 v)

/-- Refinement of a block. -/
theorem Refines.block {ss ts : List (Item Value)} (h : Refines ss ts) :
    Refines [.block ss] [.block ts] := by
  refine ⟨fun v hv => ?_, h.2.block h.1⟩
  rw [definesAll_block] at hv ⊢
  exact h.1 v hv

/-- A block is refined when its operations are. -/
theorem refines_inBlock {w w' : Walk} {b : Block}
    (ih : ∀ o ∈ b.ops, Refines (w.operation o) (w'.operation o)) :
    Refines (w.inBlock b) (w'.inBlock b) := by
  have hops (ops : List Operation) (h : ∀ o ∈ ops, Refines (w.operation o) (w'.operation o)) :
      Refines (w.inOperations ops) (w'.inOperations ops) := by
    induction ops with
    | nil => exact Refines.nil
    | cons o ops ihops =>
      exact (h o List.mem_cons_self).append (ihops fun o' ho' => h o' (List.mem_cons_of_mem _ ho'))
  have hargs : Refines (b.args.map fun a => define (some a.1))
      (b.args.map fun a => define (some a.1)) := by
    have hmap : (b.args.map fun a => define (some a.1)) =
        (b.args.map fun a => some a.1).map define := by
      rw [List.map_map]
      rfl
    rw [hmap]
    exact ⟨fun _ hv => hv, Admits.defines _⟩
  rw [w.inBlock_eq, w'.inBlock_eq]
  exact hargs.append (hops b.ops ih)

/-- Regions are refined when their operations are. -/
theorem refines_inRegions {w w' : Walk} {op : Operation}
    (ih : ∀ b ∈ op.blocks, ∀ o ∈ b.ops, Refines (w.operation o) (w'.operation o)) :
    Refines (w.inRegions op.regions) (w'.inRegions op.regions) := by
  have hblocks (bs : List Block) (h : ∀ b ∈ bs, ∀ o ∈ b.ops,
    Refines (w.operation o) (w'.operation o)) :
      Refines (bs.map fun b => .block (w.inBlock b)) (bs.map fun b => .block (w'.inBlock b)) := by
    induction bs with
    | nil => exact Refines.nil
    | cons b bs ihbs =>
      have hb := (refines_inBlock (h b List.mem_cons_self)).block
      exact hb.append (ihbs fun b' hb' => h b' (List.mem_cons_of_mem _ hb'))
  rw [w.inRegions_eq, w'.inRegions_eq]
  exact hblocks _ ih

/-- What is inside an operation inside another is inside that. -/
theorem mem_operations_of_mem {w : Walk} {op o o' : Operation} {b : Block}
    (hw : w.enters op.opcode = true) (hb : b ∈ op.blocks) (ho : o ∈ b.ops)
    (h : o' ∈ w.operations o) : o' ∈ w.operations op := by
  rw [w.operations_eq, if_pos hw, w.operationsOfRegions_eq]
  refine List.mem_cons_of_mem _ (List.mem_flatMap.mpr ⟨b, hb, ?_⟩)
  rw [w.operationsOfBlock_eq]
  exact w.mem_operationsOfList.mpr ⟨o, ho, h⟩

/-- The verifier visits every operation that is written. -/
theorem operations_subset (op : Operation) : ∀ o ∈ (writerWalk m version).operations op,
    o ∈ (verifierWalk m).operations op := by
  induction op using Operation.induct with
  | step op ih =>
    intro o ho
    rw [Walk.operations_eq] at ho
    rcases List.mem_cons.mp ho with rfl | ho
    · rw [Walk.operations_eq]
      exact List.mem_cons_self
    · split at ho
      · rw [Walk.operationsOfRegions_eq] at ho
        obtain ⟨b, hb, ho⟩ := List.mem_flatMap.mp ho
        rw [Walk.operationsOfBlock_eq] at ho
        obtain ⟨op', hop', ho⟩ := (Walk.mem_operationsOfList _).mp ho
        exact mem_operations_of_mem rfl hb hop' (ih b hb op' hop' o ho)
      · cases ho

/-- A list of successes has nothing to leave out. -/
theorem map_some_reduceOption {α : Type} {xs : List (Option α)} (h : ∀ x ∈ xs, x.isSome) :
    xs.reduceOption.map some = xs := by
  induction xs with
  | nil => rfl
  | cons x xs ih =>
    obtain ⟨a, rfl⟩ := Option.isSome_iff_exists.mp (h x List.mem_cons_self)
    rw [List.reduceOption_cons_of_some, List.map_cons,
      ih fun y hy => h y (List.mem_cons_of_mem _ hy)]

/-- **What the verifier accepts the writer can write**, where no operation is used inside its own
regions. -/
theorem refines_operation (op : Operation)
    (hres : ∀ o ∈ (verifierWalk m).operations op, ResultsOk m o)
    (hown : ∀ o ∈ (writerWalk m version).operations op, OwnResultsUnused m version o) :
    Refines ((verifierWalk m).operation op) ((writerWalk m version).operation op) := by
  induction op using Operation.induct with
  | step op ih =>
    have hself (w : Walk) : op ∈ w.operations op := by
      rw [w.operations_eq]
      exact List.mem_cons_self
    obtain ⟨-, hsome⟩ := hres op (hself _)
    have hmap : (m.results op).map define =
        (m.results op).reduceOption.map fun r => define (some r) := by
      conv_lhs => rw [← map_some_reduceOption hsome, List.map_map]
      rfl
    -- the regions, where both walks enter them
    have hinside : Refines ((verifierWalk m).inside op) ((writerWalk m version).inside op) := by
      have hV : (verifierWalk m).inside op = (verifierWalk m).inRegions op.regions := if_pos rfl
      rw [hV]
      unfold Walk.inside
      split
      · rename_i hw
        exact refines_inRegions fun b hb o ho => ih b hb o ho
          (fun o' ho' => hres o' (mem_operations_of_mem rfl hb ho ho'))
          (fun o' ho' => hown o' (mem_operations_of_mem hw hb ho ho'))
      · exact ⟨fun _ hv => absurd hv List.not_mem_nil,
          Admits.skip ((verifierWalk m).onlyBlocks_inRegions _)⟩
    have honly (w : Walk) : OnlyBlocks (w.inside op) := by
      unfold Walk.inside
      split
      · exact w.onlyBlocks_inRegions _
      · exact fun _ hs => absurd hs List.not_mem_nil
    have hnot : ∀ v ∈ usesAll ((writerWalk m version).inside op),
        v ∉ (m.results op).reduceOption := by
      intro v hv hmem
      exact hown op (hself _) v hv (List.reduceOption_mem_iff.mp hmem)
    have hV : (verifierWalk m).operation op = op.operands.map use ++
        ((m.results op).reduceOption.map fun r => define (some r)) ++
        (verifierWalk m).inside op := by
      rw [Walk.operation_eq, ← hmap]
      exact List.append_nil _
    rw [hV, Walk.operation_eq]
    refine ⟨fun v hv => ?_, ?_⟩
    · simp only [writerWalk, definesAll_append, definesAll_uses, List.nil_append,
        List.mem_append] at hv ⊢
      exact hv.symm.imp_right (hinside.1 v)
    · exact Admits.node (fun v hv => encodedOperands_subset hv) hinside.2 (honly _) (honly _)
        hinside.1 hnot

/-- The items of operations in a row. -/
theorem inOperations_append (w : Walk) (ops ops' : List Operation) :
    w.inOperations (ops ++ ops') = w.inOperations ops ++ w.inOperations ops' := by
  induction ops with
  | nil => rfl
  | cons op ops ih => rw [List.cons_append, Walk.inOperations, ih, Walk.inOperations,
      List.append_assoc]

/-- The operations of a writable block are writable. -/
theorem writable_operation {w : Walk} {st : Numbering Value} {b : Block} {o : Operation}
    (h : Writable (w.inBlock b) st) (ho : o ∈ b.ops) : ∃ st', Writable (w.operation o) st' := by
  obtain ⟨ops, ops', hops⟩ := List.append_of_mem ho
  rw [w.inBlock_eq, hops, inOperations_append, Walk.inOperations] at h
  exact ⟨_, h.right.right.left⟩

/-- The blocks of writable regions are writable. -/
theorem writable_block {w : Walk} {st : Numbering Value} {op : Operation} {b : Block}
    (h : Writable (w.inRegions op.regions) st) (hb : b ∈ op.blocks) :
    ∃ st', Writable (w.inBlock b) st' := by
  obtain ⟨bs, bs', hbs⟩ := List.append_of_mem hb
  unfold Operation.blocks at hbs
  rw [w.inRegions_eq, hbs, List.map_append, List.map_cons] at h
  have hlast := h.right
  rw [← List.singleton_append] at hlast
  exact ⟨_, hlast.left.body⟩

/-- Where the names are unique, what can be written uses no operation inside its own regions. -/
theorem ownResultsUnused_of_writable (op : Operation) {st : Numbering Value}
    (h : Writable ((writerWalk m version).operation op) st) :
    ∀ o ∈ (writerWalk m version).operations op, OwnResultsUnused m version o := by
  induction op using Operation.induct generalizing st with
  | step op ih =>
    rw [Walk.operation_eq] at h
    rw [Walk.operations_eq]
    intro o ho
    rcases List.mem_cons.mp ho with rfl | ho
    · intro v hv hmem
      refine h.not_mem_uses v ?_ ?_
      · rw [usesAll_append]
        exact List.mem_append_right _ hv
      · show v ∈ definesAll ((m.results o).reduceOption.map fun r => define (some r))
        rw [definesAll_values]
        exact List.reduceOption_mem_iff.mpr hmem
    · split at ho
      · rename_i hw
        rw [Walk.operationsOfRegions_eq] at ho
        obtain ⟨b, hb, ho⟩ := List.mem_flatMap.mp ho
        rw [Walk.operationsOfBlock_eq] at ho
        obtain ⟨op', hop', ho⟩ := (Walk.mem_operationsOfList _).mp ho
        have hinside := h.left.right
        rw [Walk.inside, if_pos hw] at hinside
        obtain ⟨_, hblock⟩ := writable_block hinside hb
        obtain ⟨_, hop⟩ := writable_operation hblock hop'
        exact ih b hb op' hop' hop o ho
      · cases ho

/-- A block is walked alike when its operations are. -/
theorem inBlock_congr {w w' : Walk} {b : Block}
    (h : ∀ o ∈ b.ops, w.operation o = w'.operation o) : w.inBlock b = w'.inBlock b := by
  have hops (ops : List Operation) (h : ∀ o ∈ ops, w.operation o = w'.operation o) :
      w.inOperations ops = w'.inOperations ops := by
    induction ops with
    | nil => rfl
    | cons o ops ih =>
      rw [Walk.inOperations, Walk.inOperations, h o List.mem_cons_self,
        ih fun o' ho' => h o' (List.mem_cons_of_mem _ ho')]
  rw [w.inBlock_eq, w'.inBlock_eq, hops b.ops h]

/-- The reader meets what the writer writes, where results are as they should be. -/
theorem readerWalk_operation (op : Operation)
    (h : ∀ o ∈ (writerWalk m version).operations op, ResultsOk m o) :
    (readerWalk m version).operation op = (writerWalk m version).operation op := by
  induction op using Operation.induct with
  | step op ih =>
    obtain ⟨hcount, hsome⟩ := h op (by
      rw [Walk.operations_eq]
      exact List.mem_cons_self)
    have hresults : readerResults m op = m.results op := by
      unfold readerResults Module.results
      cases hn : op.opcode.fixedResultCount with
      | none => rfl
      | some n => rw [Option.getD_some, hcount n hn]
    have hafter : (readerWalk m version).after op = (writerWalk m version).after op := by
      show (readerResults m op).map define =
        (m.results op).reduceOption.map fun v => define (some v)
      rw [hresults]
      conv_lhs => rw [← map_some_reduceOption hsome, List.map_map]
      rfl
    have hinside : (readerWalk m version).inside op = (writerWalk m version).inside op := by
      unfold Walk.inside
      show (if op.opcode.writesRegions then _ else _) = if op.opcode.writesRegions then _ else _
      split
      · rename_i hw
        rw [Walk.inRegions_eq, Walk.inRegions_eq]
        refine List.map_congr_left fun b hb => ?_
        rw [inBlock_congr fun o ho => ih b hb o ho fun o' ho' =>
          h o' (mem_operations_of_mem hw hb ho ho')]
      · rfl
    rw [Walk.operation_eq, Walk.operation_eq, hinside, hafter]
    rfl

end Compare

/-! ### Function bodies -/

section FunctionBody

variable {casts : FloatCasts} {m : Module} {version : BytecodeVersion} {f : Operation}

/-- The body of a function is written without an operand that has no index, and the indices are
those of the reader, whatever is in the tables. -/
structure NumberedAsRead (casts : FloatCasts) (m : Module) (version : BytecodeVersion)
    (f : Operation) : Prop where
  indexed : ∀ tables e, writeFunctionBody casts m version f tables = .error (.err e) →
    ¬e.IsMissingIndex
  read : ∀ tables out, writeFunctionBody casts m version f tables = .ok out →
    numbersAll ((readerWalk m version).body f) [] = (operandIndices out.1).map some

/-- The fields of the operations that are written hold no check that fails. -/
def Encodable (m : Module) (version : BytecodeVersion) (f : Operation) : Prop :=
  ∀ o ∈ (writerWalk m version).bodyOperations f, ∀ s, Field.stop s ∉ opFields m version o

/-- The verifier has passed the function. -/
theorem verifyBcFunction_spec {entry : Block} (hentry : f.entryBlock? = some entry)
    (h : verifyBcFunction m f = []) :
    (writtenAll ((verifierWalk m).inBlock entry) ⟨[], 0⟩).isSome ∧
      ∀ o ∈ (verifierWalk m).operationsOfBlock entry, ResultsOk m o := by
  have hall := (@verifyBcOperations_checks m f.verifyName entry.ops).comp
    (Checks.assign (entry.args.map fun a => some a.1))
  rw [List.map_map] at hall
  simp only [verifyBcFunction, hentry] at h
  have hpassed := ((hall.errors ⟨⟨[], 0⟩, []⟩).mp h).2
  rw [Walk.inBlock_eq, Walk.operationsOfBlock_eq]
  exact hpassed

/-- The writer follows the stream of the entry block. -/
theorem entryBlock_follows {S : Stop WriteError → Prop} (entry : Block)
    (hS : StopsAt m version S ((writerWalk m version).operationsOfBlock entry)) :
    ((Writer.all (entry.args.map fun a => .assign a.1)).seq
      (writeOperations casts m version entry.ops)).Follows S
        ((writerWalk m version).inBlock entry) := by
  rw [Walk.inBlock_eq]
  rw [Walk.operationsOfBlock_eq] at hS
  refine Writer.Follows.seq ?_ (writeOperations_follows entry.ops hS)
  rw [List.map_eq_flatMap]
  apply Writer.Follows.all
  exact fun _ _ => Writer.Follows.assign

/-- A body that is written is returned. -/
theorem writeFunctionBody_ok {entry : Block} (hentry : f.entryBlock? = some entry)
    {tables : Tables} {body : List Piece × WriterCtx}
    (h : (Writer.all (entry.args.map fun a => .assign a.1)).seq
      (writeOperations casts m version entry.ops) ⟨tables, ⟨[], 0⟩⟩ = .ok body) :
    writeFunctionBody casts m version f tables = .ok (body.1, body.2.tables) := by
  simp only [writeFunctionBody, hentry, h]
  rfl

/-- A body that fails is an error. -/
theorem writeFunctionBody_error {entry : Block} (hentry : f.entryBlock? = some entry)
    {tables : Tables} {s : Stop WriteError}
    (h : (Writer.all (entry.args.map fun a => .assign a.1)).seq
      (writeOperations casts m version entry.ops) ⟨tables, ⟨[], 0⟩⟩ = .error s) :
    writeFunctionBody casts m version f tables = .error s := by
  simp only [writeFunctionBody, hentry, h]
  rfl

/-- What is inside an operation of a block is inside the block. -/
theorem mem_operationsOfBlock {w : Walk} {b : Block} {op o : Operation} (hop : op ∈ b.ops)
    (ho : o ∈ w.operations op) : o ∈ w.operationsOfBlock b := by
  rw [w.operationsOfBlock_eq]
  exact w.mem_operationsOfList.mpr ⟨op, hop, ho⟩

/-- Where no operation is used inside its own regions, every operand has an index. -/
theorem writtenAll_entryBlock {entry : Block} (hentry : f.entryBlock? = some entry)
    (hpassed : verifyBcFunction m f = [])
    (hown : ∀ o ∈ (writerWalk m version).operationsOfBlock entry, OwnResultsUnused m version o) :
    (writtenAll ((writerWalk m version).inBlock entry) ⟨[], 0⟩).isSome := by
  obtain ⟨hwritten, hresults⟩ := verifyBcFunction_spec hentry hpassed
  have hrefines : Refines ((verifierWalk m).inBlock entry) ((writerWalk m version).inBlock entry) :=
    refines_inBlock fun op hop => refines_operation op
      (fun o ho => hresults o (mem_operationsOfBlock hop ho))
      (fun o ho => hown o (mem_operationsOfBlock hop ho))
  have hempty : Numbering.Bounded (⟨[], 0⟩ : Numbering Value) :=
    fun _ hp => absurd hp List.not_mem_nil
  exact (hrefines.2 ⟨[], 0⟩ ⟨[], 0⟩ [] hempty hempty
    (fun _ hv => absurd hv List.not_mem_nil) hwritten
    fun _ _ => List.not_mem_nil).1

/-- The reader meets what is written in a function that the verifier has passed. -/
theorem readerWalk_entryBlock {entry : Block} (hentry : f.entryBlock? = some entry)
    (hpassed : verifyBcFunction m f = []) :
    (readerWalk m version).inBlock entry = (writerWalk m version).inBlock entry := by
  obtain ⟨-, hresults⟩ := verifyBcFunction_spec hentry hpassed
  exact inBlock_congr fun op hop => readerWalk_operation op fun o ho =>
    hresults o (mem_operationsOfBlock hop (operations_subset op o ho))

/-- **Numbers of operands.**  In a module that passes both checks, a function body in which no
operation is used inside its own regions is numbered as a reader numbers it; and where the names are
unique and nothing else stops the writer, only such a body is. -/
theorem functionBody_numbered_iff (casts : FloatCasts) (m : Module) (version : BytecodeVersion)
    (_hdominance : m.verifyDominance = []) (hindices : m.verifyBytecodeIndices = [])
    (f : Operation) (hf : f ∈ m.functions) :
    ((∀ o ∈ (writerWalk m version).bodyOperations f, OwnResultsUnused m version o) →
      NumberedAsRead casts m version f) ∧
    ((definesAll ((writerWalk m version).body f)).Nodup → Encodable m version f →
      NumberedAsRead casts m version f →
      ∀ o ∈ (writerWalk m version).bodyOperations f, OwnResultsUnused m version o) := by
  have hpassed : verifyBcFunction m f = [] := List.flatMap_eq_nil_iff.mp hindices f hf
  unfold Walk.bodyOperations Walk.body
  -- without an entry block nothing is written and nothing is read
  cases hentry : f.entryBlock? with
  | none =>
    refine ⟨fun _ => ?_, fun _ _ _ o ho => absurd ho List.not_mem_nil⟩
    have hw tables : writeFunctionBody casts m version f tables = .ok ([], tables) := by
      simp only [writeFunctionBody, hentry]
    refine ⟨fun tables e h => ?_, fun tables out h => ?_⟩
    · rw [hw] at h
      cases h
    · rw [hw] at h
      cases h
      rw [Walk.body, hentry]
      rfl
  | some entry =>
    constructor
    -- the verifier has seen every value that the writer needs
    · intro hown
      have hwritten := writtenAll_entryBlock hentry hpassed hown
      have hfollows := @entryBlock_follows casts m version
        (fun s => ∃ o ∈ (writerWalk m version).operationsOfBlock entry,
          Field.stop s ∈ opFields m version o) entry fun o ho s hs => ⟨o, ho, hs⟩
      -- the writer stops for a missing value only, and there is none
      refine ⟨fun tables e h => ?_, fun tables out h => ?_⟩
      · cases hrun : (Writer.all (entry.args.map fun a => .assign a.1)).seq
            (writeOperations casts m version entry.ops) ⟨tables, ⟨[], 0⟩⟩ with
        | ok body => cases (writeFunctionBody_ok hentry hrun).symm.trans h
        | error s =>
          cases (writeFunctionBody_error hentry hrun).symm.trans h
          rcases hfollows.error hrun with ⟨hnone, -⟩ | ⟨o, -, hs⟩
          · rw [hnone] at hwritten
            cases hwritten
          · exact opFields_sound _ hs e rfl
      · cases hrun : (Writer.all (entry.args.map fun a => .assign a.1)).seq
            (writeOperations casts m version entry.ops) ⟨tables, ⟨[], 0⟩⟩ with
        | error s => cases (writeFunctionBody_error hentry hrun).symm.trans h
        | ok body =>
          cases (writeFunctionBody_ok hentry hrun).symm.trans h
          rw [Walk.body, hentry, Option.elim_some, readerWalk_entryBlock hentry hpassed]
          exact writtenAll_agrees _ Numbering.agrees_empty (hfollows.ok hrun).1
    -- conversely, what the writer can number was defined before it was used
    · intro hnodup hencodable hnumbered
      have hfollows := @entryBlock_follows casts m version (fun _ => False) entry fun o ho s hs =>
        hencodable o (by rwa [Walk.bodyOperations, hentry]) s hs
      have hwritten : (writtenAll ((writerWalk m version).inBlock entry) ⟨[], 0⟩).isSome := by
        cases hrun : (Writer.all (entry.args.map fun a => .assign a.1)).seq
            (writeOperations casts m version entry.ops) ⟨Tables.empty, ⟨[], 0⟩⟩ with
        | ok out => exact Option.isSome_iff_exists.mpr ⟨_, (hfollows.ok hrun).1⟩
        | error s =>
          obtain ⟨-, e, rfl, hmissing⟩ := (hfollows.error hrun).resolve_right id
          exact absurd hmissing
            (hnumbered.indexed Tables.empty e (writeFunctionBody_error hentry hrun))
      have hwritable : Writable ((writerWalk m version).inBlock entry) ⟨[], 0⟩ :=
        ⟨⟨hnodup, fun _ hv => absurd hv List.not_mem_nil⟩, hwritten⟩
      intro o ho
      rw [Option.elim_some, Walk.operationsOfBlock_eq] at ho
      obtain ⟨op, hop, ho⟩ := (Walk.mem_operationsOfList _).mp ho
      obtain ⟨_, hwritable⟩ := writable_operation hwritable hop
      exact ownResultsUnused_of_writable op hwritable o ho

end FunctionBody

/-! ### A conditional -/

/-- Casts that keep the low bits. -/
def lowBits : FloatCasts where
  f16 bits := bits.toUInt16
  bf16 bits := bits.toUInt16
  f32 bits := bits.toUInt32
  f8e4m3fn bits := bits.toUInt8
  f8e5m2 bits := bits.toUInt8

/-- An entry that takes a condition and yields `yielded` from the first branch of an `if`. -/
def conditionalEntry (yielded : Value) : Operation where
  id := 0
  opcode := .entry
  operands := []
  resultTypes := []
  attributes := [("sym_name", .string "select")]
  regions := [⟨[⟨[(0, .tile ⟨[], .scalar .i1⟩)], [
    ⟨1, .ifOp, [0], [.tile ⟨[], .scalar .i1⟩], [],
      [⟨[⟨[], [⟨2, .yieldOp, [yielded], [], [], [], .unknown⟩]⟩]⟩,
        ⟨[⟨[], [⟨3, .yieldOp, [0], [], [], [], .unknown⟩]⟩]⟩], .unknown⟩,
    ⟨4, .returnOp, [], [], [], [], .unknown⟩]⟩]⟩]
  location := .unknown

/-- A conditional that yields a value. -/
def conditionalModule (yielded : Value) : Module where
  producer := none
  values := [⟨.tile ⟨[], .scalar .i1⟩, .blockArg 0 0⟩, ⟨.tile ⟨[], .scalar .i1⟩, .opResult 1 0⟩]
  functions := [conditionalEntry yielded]
  globals := []

/-- The body of the example is numbered as it is read. -/
theorem functionBody_numbered_iff_conditional :
    NumberedAsRead lowBits (conditionalModule 0) BytecodeVersion.v13_2 (conditionalEntry 0) :=
  (functionBody_numbered_iff lowBits (conditionalModule 0) BytecodeVersion.v13_2 (by decide +kernel)
    (by decide +kernel) (conditionalEntry 0) (by exact List.mem_singleton.mpr rfl)).1
      (by decide +kernel)

/-- The result of the `if` is yielded from its own branch: both checks pass, and the writer
fails. -/
theorem functionBody_own_result_unindexed :
    (conditionalModule 1).verifyDominance = [] ∧ (conditionalModule 1).verifyBytecodeIndices = [] ∧
      writeFunctionBody lowBits (conditionalModule 1) BytecodeVersion.v13_2
        (conditionalEntry 1) Tables.empty =
        .error (.err (.operandNotFound 1 .yieldOp)) := by
  refine ⟨?_, ?_, ?_⟩
  · decide +kernel
  · decide +kernel
  · rfl

end CudaOxide.TileIr
