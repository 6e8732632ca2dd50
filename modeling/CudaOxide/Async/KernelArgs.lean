import CudaOxide.Lib.Packing
import CudaOxide.Lib.Safe

/-!
# Kernel argument storage

The argument values of a launch in slots of 16 bytes, inline at first and on the heap when there are
too many, with boxes for what is aligned more than a slot (`KernelArgStorage` of
`cuda-async/src/launch.rs`).

* `KernelArgStorage`, `push`, `pushBox`, `withParamPtrs` — the storage and its operations; writes
  stop at the end of an array, and a pointer is an allocation and an offset.
* `Stores` — the invariant: the slots hold the images of the plain arguments, in order.
* `kernel_args_stored` — after every sequence of pushes, one pointer for each argument in order.
-/

namespace CudaOxide.Async

open Lib Packing

/-! ### Values and pointers -/

/-- A byte of memory; `none` is uninitialized. -/
abbrev Byte := Option UInt8

/-- A value of some type: the alignment of the type is a power of two and divides its size. -/
structure Value where
  align : ℕ
  bytes : List Byte
  align_pow : ∃ k, align = 2 ^ k
  align_dvd : align ∣ bytes.length

/-- The size of a slot, which is also its alignment. -/
def slotSize : ℕ := 16

/-- Arguments of up to 32 slots are stored inline. -/
def inlineSlots : ℕ := 32

namespace Value

/-- `size_of::<T>().div_ceil(SLOT).max(1)` -/
def slots (v : Value) : ℕ := max ((v.bytes.length + (slotSize - 1)) / slotSize) 1

/-- What the slots of a value hold: its bytes, and zeros behind them. -/
def image (v : Value) : List Byte :=
  v.bytes ++ List.replicate (slotSize * v.slots - v.bytes.length) (some 0)

end Value

/-- An allocation: the slots, or a box. -/
inductive Block where
  | arena
  | box (id : ℕ)
  deriving DecidableEq

/-- A block of memory and an offset into it. -/
structure Pointer where
  block : Block
  offset : ℕ
  deriving DecidableEq

/-! ### The storage -/

/-- The pointer of a box that was leaked. -/
structure ErasedArgument where
  ptr : Pointer

/-- Where an argument lies: among the plain ones or among the boxes. -/
inductive ArgumentIndex where
  | plain (index : ℕ)
  | boxed (index : ℕ)
  deriving DecidableEq

/-- The three representations of a list of arguments. -/
inductive KernelArgStorage where
  | mixed (plain : KernelArgStorage) (boxed : List ErasedArgument) (order : List ArgumentIndex)
  | inline (values : List Byte) (offsets : List UInt8) (valuesLen argsLen : ℕ)
  | heap (values : List Byte) (offsets : List ℕ)

namespace KernelArgStorage

/-- `KernelArgStorage::default` -/
def empty : KernelArgStorage :=
  inline (List.replicate (slotSize * inlineSlots) none) (List.replicate inlineSlots 0) 0 0

/-- The number of arguments. -/
def len : KernelArgStorage → ℕ
  | mixed _ _ order => order.length
  | inline _ _ _ argsLen => argsLen
  | heap _ offsets => offsets.length

/-- The first half of `push_box`: what was stored so far becomes the plain part. -/
def mix : KernelArgStorage → KernelArgStorage
  | mixed plain boxed order => mixed plain boxed order
  | inline values offsets valuesLen argsLen =>
    mixed (inline values offsets valuesLen argsLen) [] ((List.range argsLen).map .plain)
  | heap values offsets => mixed (heap values offsets) [] ((List.range offsets.length).map .plain)

/-- `push_box`, of a box whose pointer is `ptr` -/
def pushBox (s : KernelArgStorage) (ptr : Pointer) : Run Unit KernelArgStorage :=
  match s.mix with
  | mixed plain boxed order =>
    .ok (mixed plain (boxed ++ [⟨ptr⟩]) (order ++ [.boxed boxed.length]))
  -- `unreachable!()`
  | inline _ _ _ _ => Run.panic .assertion
  | heap _ _ => Run.panic .assertion

/-- `push`, where there is inline room -/
def pushInline (values : List Byte) (offsets : List UInt8) (valuesLen argsLen : ℕ) (arg : Value) :
    Run Unit KernelArgStorage := do
  let offset := valuesLen
  let values ← writeAt values (slotSize * offset) (List.replicate (slotSize * arg.slots) (some 0))
  let values ← writeAt values (slotSize * offset) arg.bytes
  let offsets ← writeAt offsets argsLen [UInt8.ofNat offset]
  .ok (inline values offsets (valuesLen + arg.slots) (argsLen + 1))

/-- `push`, on the heap -/
def pushHeap (values : List Byte) (offsets : List ℕ) (arg : Value) : Run Unit KernelArgStorage := do
  let offset := values.length / slotSize
  let values := values ++ List.replicate (slotSize * arg.slots) (some 0)
  let values ← writeAt values (slotSize * offset) arg.bytes
  .ok (heap values (offsets ++ [offset]))

/-- `push`, with the boxes allocated so far -/
def push (s : KernelArgStorage) (arg : Value) (boxes : List Value) :
    Run Unit (KernelArgStorage × List Value) :=
  if slotSize < arg.align then do
    let s ← s.pushBox ⟨.box boxes.length, 0⟩
    .ok (s, boxes ++ [arg])
  else
    match s with
    | mixed plain boxed order => do
      let index := plain.len
      let pushed ← push plain arg boxes
      .ok (mixed pushed.1 boxed (order ++ [.plain index]), pushed.2)
    | inline values offsets valuesLen argsLen => do
      if valuesLen + arg.slots ≤ inlineSlots ∧ argsLen < inlineSlots then
        .ok (← pushInline values offsets valuesLen argsLen arg, boxes)
      else
        -- out of inline room
        let heapValues ← sliceTo values (slotSize * valuesLen)
        let heapOffsets ← sliceTo offsets argsLen
        .ok (← pushHeap heapValues (heapOffsets.map UInt8.toNat) arg, boxes)
    | heap values offsets => do .ok (← pushHeap values offsets arg, boxes)

/-- The pointer to a slot. -/
def slotPtr (offset : ℕ) : Pointer := ⟨.arena, slotSize * offset⟩

/-- The closure of `with_param_ptrs` over the order of mixed storage. -/
def paramPtr (ptrs : List Pointer) (boxed : List ErasedArgument) : ArgumentIndex → Run Unit Pointer
  | .plain i => Run.index ptrs i
  | .boxed i => do .ok (← Run.index boxed i).ptr

/-- `with_param_ptrs`: the pointers that are passed on -/
def withParamPtrs : KernelArgStorage → Run Unit (List Pointer)
  | mixed plain boxed order => do
    let ptrs ← plain.withParamPtrs
    order.mapM (paramPtr ptrs boxed)
  | inline _ offsets _ argsLen => do
    let offsets ← sliceTo offsets argsLen
    .ok (offsets.map fun offset => slotPtr offset.toNat)
  | heap _ offsets => .ok (offsets.map slotPtr)

/-- The bytes of the slots. -/
def arena : KernelArgStorage → List Byte
  | mixed plain _ _ => plain.arena
  | inline values _ _ _ => values
  | heap values _ => values

end KernelArgStorage

/-! ### Runs -/

/-- The storage and the boxes that were allocated. -/
structure Launcher where
  args : KernelArgStorage
  boxes : List Value

/-- The two ways to push an argument. -/
inductive Push where
  | push (arg : Value)
  | pushBox (arg : Value)

/-- The value that is pushed. -/
def Push.value : Push → Value
  | push arg => arg
  | pushBox arg => arg

namespace Launcher

/-- One push on the launcher. -/
def step (l : Launcher) : Push → Run Unit Launcher
  | .push arg => do
    let pushed ← l.args.push arg l.boxes
    .ok ⟨pushed.1, pushed.2⟩
  | .pushBox arg => do .ok ⟨← l.args.pushBox ⟨.box l.boxes.length, 0⟩, l.boxes ++ [arg]⟩

/-- All pushes of a launch, from an empty launcher. -/
def run (pushes : List Push) : Run Unit Launcher := pushes.foldlM step ⟨.empty, []⟩

/-- The bytes of an allocation. -/
def block (l : Launcher) : Block → Option (List Byte)
  | .arena => some l.args.arena
  | .box id => l.boxes[id]?.map Value.bytes

/-- `n` bytes from a pointer on, inside the allocation. -/
def read (l : Launcher) (p : Pointer) (n : ℕ) : Option (List Byte) := do
  let bytes ← l.block p.block
  if p.offset + n ≤ bytes.length then some ((bytes.drop p.offset).take n) else none

/-- The alignment of an allocation: slots are aligned to their size, a box to the value. -/
def blockAlign (l : Launcher) : Block → ℕ
  | .arena => slotSize
  | .box id => (l.boxes[id]?.map Value.align).getD 1

end Launcher

/-! ### The slots -/

section Slots

variable {values : List Byte} {used : ℕ} {offsets : List ℕ} {args : List Value} {v : Value}

/-- A value fits in its slots. -/
theorem Value.size_le (v : Value) : v.bytes.length ≤ slotSize * v.slots := by
  unfold slots slotSize
  omega

theorem Value.slots_pos (v : Value) : 0 < v.slots := Nat.one_pos.trans_le (le_max_right _ _)

/-- The image of a value fills its slots. -/
@[simp] theorem Value.length_image (v : Value) : v.image.length = slotSize * v.slots := by
  have := v.size_le
  rw [image, List.length_append, List.length_replicate]
  omega

/-- The value goes over zeros. -/
theorem writeAt_bytes (left right : List Byte) (v : Value) :
    (writeAt (left ++ (List.replicate (slotSize * v.slots) (some 0) ++ right)) left.length v.bytes :
      Run Unit (List Byte)) = .ok (left ++ (v.image ++ right)) := by
  obtain ⟨rest, hrest⟩ := Nat.exists_eq_add_of_le v.size_le
  have hzeros : List.replicate (slotSize * v.slots) (some 0 : Byte) =
      List.replicate v.bytes.length (some 0) ++ List.replicate rest (some 0) := by
    rw [hrest, List.replicate_add]
  rw [hzeros, List.append_assoc, writeAt_append (by rw [List.length_replicate]), Value.image, hrest,
    Nat.add_sub_cancel_left, List.append_assoc]

/-- The first `used` slots hold the images of the arguments in order, and the offsets say where each
starts. -/
structure Holds (values : List Byte) (used : ℕ) (offsets : List ℕ) (args : List Value) : Prop where
  used_eq : used = start Value.slots args args.length
  le : slotSize * used ≤ values.length
  bytes : values.take (slotSize * used) = args.flatMap Value.image
  offsets_eq : offsets = (List.range args.length).map (start Value.slots args)

/-- An argument that is appended starts no earlier one anew. -/
theorem start_append_self : start Value.slots (args ++ [v]) args.length =
    start Value.slots args args.length :=
  start_append le_rfl

/-- The end moves by the slots of the new argument. -/
theorem start_snoc : start Value.slots (args ++ [v]) (args ++ [v]).length =
    start Value.slots args args.length + v.slots := by
  rw [start, start, List.take_length, List.take_length, List.map_append, List.sum_append]
  rfl

/-- One more argument behind the used slots. -/
theorem Holds.push (h : Holds values used offsets args) (v : Value) (right : List Byte) :
    Holds (values.take (slotSize * used) ++ (v.image ++ right)) (used + v.slots) (offsets ++ [used])
      (args ++ [v]) := by
  have hlen : (values.take (slotSize * used) ++ v.image).length = slotSize * (used + v.slots) := by
    rw [List.length_append, List.length_take, min_eq_left h.le, v.length_image, Nat.mul_add]
  refine ⟨?_, ?_, ?_, ?_⟩
  · rw [start_snoc, h.used_eq]
  · rw [← List.append_assoc, List.length_append, hlen]
    exact Nat.le_add_right _ _
  · rw [← List.append_assoc, ← hlen, List.take_left, h.bytes]
    simp
  · have hsame : (List.range args.length).map (start Value.slots args) =
        (List.range args.length).map (start Value.slots (args ++ [v])) := by
      refine List.map_congr_left fun i hi => ?_
      rw [start_append (List.mem_range.mp hi).le]
    rw [h.offsets_eq, List.length_append, List.length_singleton, List.range_succ,
      List.map_append, hsame,
      List.map_singleton, start_append_self, ← h.used_eq]

/-- What stands at the start of an argument. -/
theorem Holds.read (h : Holds values used offsets args) {i : ℕ} (hv : args[i]? = some v) :
    slotSize * start Value.slots args i + v.bytes.length ≤ values.length ∧
      (values.drop (slotSize * start Value.slots args i)).take v.bytes.length = v.bytes := by
  have hi : i < args.length := (List.getElem?_eq_some_iff.mp hv).1
  have hend : start Value.slots args i + v.slots ≤ used := h.used_eq ▸ start_add_le hi hv
  have hbytes := v.size_le
  have hmul := Nat.mul_le_mul_left slotSize hend
  have hle := h.le
  rw [Nat.mul_add] at hmul
  refine ⟨by omega, ?_⟩
  have himage := slice_flatMap Value.length_image hv
  have hfirst : v.bytes = v.image.take v.bytes.length := by rw [Value.image, List.take_left]
  rw [← h.bytes, List.drop_take, List.take_take] at himage
  conv_rhs => rw [hfirst, ← himage, List.take_take]
  congr 1
  omega

end Slots

/-! ### Plain storage -/

namespace KernelArgStorage

variable {s : KernelArgStorage} {args : List Value} {v : Value} {boxes : List Value}

/-- Storage without boxes holds the arguments. -/
def StoresPlain : KernelArgStorage → List Value → Prop
  | mixed _ _ _, _ => False
  | inline values offsets valuesLen argsLen, args =>
    Holds values valuesLen ((offsets.take argsLen).map UInt8.toNat) args ∧
      values.length = slotSize * inlineSlots ∧ offsets.length = inlineSlots ∧
        argsLen = args.length ∧ argsLen ≤ inlineSlots
  | heap values offsets, args =>
    Holds values (values.length / slotSize) offsets args ∧ slotSize ∣ values.length

/-- The empty storage holds no argument. -/
theorem storesPlain_empty : empty.StoresPlain [] := by
  refine ⟨⟨rfl, ?_, rfl, rfl⟩, ?_, ?_, rfl, ?_⟩ <;> simp

/-- The storage counts its arguments. -/
theorem StoresPlain.len_eq (h : s.StoresPlain args) : s.len = args.length := by
  cases s with
  | mixed plain boxed order => exact h.elim
  | inline values offsets valuesLen argsLen => exact h.2.2.2.1
  | heap values offsets =>
    show offsets.length = _
    rw [h.1.offsets_eq, List.length_map, List.length_range]

/-- On the heap, the vector ends where the new argument starts. -/
theorem pushHeap_stores {values : List Byte} {offsets : List ℕ} {used : ℕ}
    (h : Holds values used offsets args) (hlen : values.length = slotSize * used) (v : Value) :
    (pushHeap values offsets v).Returns fun s => s.StoresPlain (args ++ [v]) := by
  have hused : values.length / slotSize = used := by
    rw [hlen]
    exact Nat.mul_div_cancel_left _ (by decide)
  have hwrite : (writeAt (values ++ List.replicate (slotSize * v.slots) (some 0)) (slotSize * used)
      v.bytes : Run Unit (List Byte)) = .ok (values ++ v.image) := by
    have := writeAt_bytes values [] v
    rwa [List.append_nil, List.append_nil, hlen] at this
  have hnext := h.push v []
  rw [List.append_nil, ← hlen, List.take_length] at hnext
  have hlength : (values ++ v.image).length = slotSize * (used + v.slots) := by
    rw [List.length_append, v.length_image, hlen, Nat.mul_add]
  unfold pushHeap
  dsimp only
  rw [hused]
  refine .bind_ok hwrite (.ok ⟨?_, ?_⟩)
  · rwa [hlength, Nat.mul_div_cancel_left _ (by decide)]
  · rw [hlength]
    exact dvd_mul_right _ _

/-- Inline, the offset still fits a byte. -/
theorem pushInline_stores {values : List Byte} {offsets : List UInt8} {valuesLen argsLen : ℕ}
    (h : (inline values offsets valuesLen argsLen).StoresPlain args)
    (hslots : valuesLen + v.slots ≤ inlineSlots) (hargs : argsLen < inlineSlots) :
    (pushInline values offsets valuesLen argsLen v).Returns fun s =>
      s.StoresPlain (args ++ [v]) := by
  obtain ⟨hholds, hvalues, hoffsets, hcount, hmax⟩ := h
  have hsplit : values = values.take (slotSize * valuesLen) ++
      ((values.drop (slotSize * valuesLen)).take (slotSize * v.slots) ++
        values.drop (slotSize * valuesLen + slotSize * v.slots)) := by
    rw [← List.drop_drop, List.take_append_drop, List.take_append_drop]
  have hfit : slotSize * valuesLen + slotSize * v.slots ≤ slotSize * inlineSlots := by
    rw [← Nat.mul_add]
    exact Nat.mul_le_mul_left _ hslots
  have hleft : (values.take (slotSize * valuesLen)).length = slotSize * valuesLen := by
    rw [List.length_take, min_eq_left hholds.le]
  have hold : (List.replicate (slotSize * v.slots) (some 0 : Byte)).length =
      ((values.drop (slotSize * valuesLen)).take (slotSize * v.slots)).length := by
    rw [List.length_replicate, List.length_take, List.length_drop, hvalues]
    omega
  have hzeros := @writeAt_append Unit _ (values.take (slotSize * valuesLen)) _ _
    (values.drop (slotSize * valuesLen + slotSize * v.slots)) hold
  rw [← hsplit, hleft] at hzeros
  have hbytes := writeAt_bytes (values.take (slotSize * valuesLen))
    (values.drop (slotSize * valuesLen + slotSize * v.slots)) v
  rw [hleft] at hbytes
  have hoffset : (writeAt offsets argsLen [UInt8.ofNat valuesLen] : Run Unit (List UInt8)) =
      .ok (offsets.take argsLen ++ [UInt8.ofNat valuesLen] ++ offsets.drop (argsLen + 1)) :=
    if_pos (by rw [List.length_singleton]; omega)
  have htake : (offsets.take argsLen).length = argsLen := by
    rw [List.length_take]
    omega
  -- an offset below 32 is not cut off
  have hcast : (UInt8.ofNat valuesLen).toNat = valuesLen := by
    have hpos := v.slots_pos
    have hinline : inlineSlots = 32 := rfl
    rw [UInt8.toNat_ofNat', Nat.mod_eq_of_lt (by omega)]
  refine .bind_ok hzeros (.bind_ok hbytes (.bind_ok hoffset (.ok ⟨?_, ?_, ?_, ?_, by omega⟩)))
  · have htaken : (offsets.take argsLen ++ [UInt8.ofNat valuesLen] ++
      offsets.drop (argsLen + 1)).take
        (argsLen + 1) = offsets.take argsLen ++ [UInt8.ofNat valuesLen] := by
      have hlen : argsLen + 1 = (offsets.take argsLen ++ [UInt8.ofNat valuesLen]).length := by
        rw [List.length_append, htake, List.length_singleton]
      rw [hlen, List.take_left]
    rw [htaken, List.map_append, List.map_singleton, hcast]
    exact hholds.push v _
  · rw [List.length_append, List.length_append, hleft, v.length_image, List.length_drop, hvalues]
    omega
  · rw [List.length_append, List.length_append, htake, List.length_singleton,
      List.length_drop, hoffsets]
    omega
  · rw [List.length_append, List.length_singleton, hcount]

/-- **One push, inline, into the heap or on it.** -/
theorem push_storesPlain (boxes : List Value) (h : s.StoresPlain args)
    (hsmall : v.align ≤ slotSize) :
    (s.push v boxes).Returns fun r => r.1.StoresPlain (args ++ [v]) ∧ r.2 = boxes := by
  cases s with
  | mixed plain boxed order => exact h.elim
  | inline values offsets valuesLen argsLen =>
    unfold push
    rw [if_neg (not_lt.mpr hsmall)]
    refine .ite (fun hroom => ?_) fun _ => ?_
    · refine (pushInline_stores h hroom.1 hroom.2).bind fun s hs => ?_
      exact .ok ⟨hs, rfl⟩
    · obtain ⟨hholds, hvalues, hoffsets, hcount, hmax⟩ := h
      have htake : (values.take (slotSize * valuesLen)).length = slotSize * valuesLen := by
        rw [List.length_take, min_eq_left hholds.le]
      have hmoved : Holds (values.take (slotSize * valuesLen)) valuesLen
          ((offsets.take argsLen).map UInt8.toNat) args :=
        ⟨hholds.used_eq, htake.ge, by rw [List.take_take, min_self, hholds.bytes],
          hholds.offsets_eq⟩
      refine .bind_ok (sliceTo_of_le hholds.le) (.bind_ok (sliceTo_of_le (hoffsets ▸ hmax)) ?_)
      refine (pushHeap_stores hmoved htake v).bind fun s hs => ?_
      exact .ok ⟨hs, rfl⟩
  | heap values offsets =>
    unfold push
    rw [if_neg (not_lt.mpr hsmall)]
    refine (pushHeap_stores h.1 (Nat.mul_div_cancel' h.2).symm v).bind fun s hs => ?_
    exact .ok ⟨hs, rfl⟩

/-! ### Mixed storage -/

/-- The argument that an index stands for. -/
def Designates (plainArgs : List Value) (boxed : List ErasedArgument) (boxes : List Value) :
    ArgumentIndex → Value → Prop
  | .plain i, v => plainArgs[i]? = some v
  | .boxed i, v => ∃ id, boxed[i]? = some ⟨⟨.box id, 0⟩⟩ ∧ boxes[id]? = some v

/-- Storage holds the arguments, where plain storage counts as mixed storage without boxes. -/
structure Stores (s : KernelArgStorage) (boxes : List Value) (args plainArgs : List Value)
    (plain : KernelArgStorage) (boxed : List ErasedArgument) (order : List ArgumentIndex) :
      Prop where
  mix_eq : s.mix = mixed plain boxed order
  plain_stores : plain.StoresPlain plainArgs
  small : ∀ v ∈ plainArgs, v.align ≤ slotSize
  designates : List.Forall₂ (Designates plainArgs boxed boxes) order args
  nodup : order.Nodup
  /-- No two entries have one box. -/
  boxed_nodup : boxed.Nodup
  boxed_lt : ∀ e ∈ boxed, ∃ id < boxes.length, e = ⟨⟨.box id, 0⟩⟩

/-- An argument is found at its index also when more are pushed. -/
theorem Designates.append {plainArgs : List Value} {boxed : List ErasedArgument}
    {index : ArgumentIndex}
    (h : Designates plainArgs boxed boxes index v) (more : List Value)
      (moreBoxed : List ErasedArgument)
    (moreBoxes : List Value) :
    Designates (plainArgs ++ more) (boxed ++ moreBoxed) (boxes ++ moreBoxes) index v := by
  cases index with
  | plain i => exact (List.getElem?_append_left (List.getElem?_eq_some_iff.mp h).1).trans h
  | boxed i =>
    obtain ⟨id, hboxed, hbox⟩ := h
    exact ⟨id, (List.getElem?_append_left (List.getElem?_eq_some_iff.mp hboxed).1).trans hboxed,
      (List.getElem?_append_left (List.getElem?_eq_some_iff.mp hbox).1).trans hbox⟩

section Step

variable {plainArgs : List Value} {plain : KernelArgStorage} {boxed : List ErasedArgument}
  {order : List ArgumentIndex}

/-- The empty storage, as a mixed one. -/
theorem stores_empty : empty.Stores [] [] [] empty [] [] :=
  ⟨rfl, storesPlain_empty, fun _ h => absurd h List.not_mem_nil, .nil, List.nodup_nil,
    List.nodup_nil,
    fun _ h => absurd h List.not_mem_nil⟩

/-- An index that stands for an argument is in range. -/
theorem Stores.mem_order (h : s.Stores boxes args plainArgs plain boxed order)
    {index : ArgumentIndex}
    (hindex : index ∈ order) : ∃ v, Designates plainArgs boxed boxes index v := by
  obtain ⟨i, hi, rfl⟩ := List.mem_iff_getElem.mp hindex
  have hlen := h.designates.length_eq
  exact ⟨args[i], h.designates.get hi (hlen ▸ hi)⟩

/-- A box is recorded without touching the plain arguments. -/
theorem Stores.pushBox (h : s.Stores boxes args plainArgs plain boxed order) (v : Value) :
    (s.pushBox ⟨.box boxes.length, 0⟩).Returns fun s' =>
      s'.Stores (boxes ++ [v]) (args ++ [v]) plainArgs plain
        (boxed ++ [⟨⟨.box boxes.length, 0⟩⟩]) (order ++ [.boxed boxed.length]) := by
  rw [KernelArgStorage.pushBox, h.mix_eq]
  refine .ok ⟨rfl, h.plain_stores, h.small, ?_, ?_, ?_, ?_⟩
  · refine List.rel_append (h.designates.imp fun index w hw => ?_) (.cons ?_ .nil)
    · have := hw.append [] [⟨⟨.box boxes.length, 0⟩⟩] [v]
      rwa [List.append_nil] at this
    · exact ⟨boxes.length, by simp, by simp⟩
  · refine List.nodup_append.mpr ⟨h.nodup, List.nodup_singleton _, ?_⟩
    intro index hindex x hx heq
    obtain rfl := List.mem_singleton.mp hx
    obtain ⟨w, hw⟩ := h.mem_order hindex
    rw [heq] at hw
    obtain ⟨id, hboxed, -⟩ := hw
    exact absurd (List.getElem?_eq_some_iff.mp hboxed).1 (lt_irrefl _)
  · refine List.nodup_append.mpr ⟨h.boxed_nodup, List.nodup_singleton _, ?_⟩
    intro e he x hx heq
    obtain rfl := List.mem_singleton.mp hx
    obtain ⟨id, hid, hptr⟩ := h.boxed_lt e he
    rw [heq] at hptr
    injection hptr with hptr
    injection hptr with hblock
    injection hblock with hblock
    exact absurd hid (hblock ▸ lt_irrefl _)
  · intro e he
    rcases List.mem_append.mp he with he | he
    · obtain ⟨id, hid, hptr⟩ := h.boxed_lt e he
      exact ⟨id, by rw [List.length_append]; omega, hptr⟩
    · exact ⟨boxes.length, by simp, List.mem_singleton.mp he⟩

/-- Plain storage before and after a push. -/
theorem mix_of_storesPlain (h : s.StoresPlain args) :
    s.mix = mixed s [] ((List.range args.length).map .plain) := by
  cases s with
  | mixed plain boxed order => exact h.elim
  | inline values offsets valuesLen argsLen =>
    rw [← h.2.2.2.1]
    rfl
  | heap values offsets =>
    rw [← h.len_eq]
    rfl

/-- A value that is not aligned more than a slot goes to the plain part. -/
theorem Stores.push_small (h : s.Stores boxes args plainArgs plain boxed order)
    (hsmall : v.align ≤ slotSize) :
    (s.push v boxes).Returns fun r => ∃ plain',
      r.1.Stores r.2 (args ++ [v]) (plainArgs ++ [v]) plain' boxed
        (order ++ [.plain plainArgs.length]) ∧
        r.2 = boxes := by
  have hplain := push_storesPlain boxes h.plain_stores hsmall
  -- whatever storage has the parts
  have hstores : ∀ {s' plain' : KernelArgStorage}, plain'.StoresPlain (plainArgs ++ [v]) →
      s'.mix = mixed plain' boxed (order ++ [.plain plainArgs.length]) →
      s'.Stores boxes (args ++ [v]) (plainArgs ++ [v]) plain' boxed
        (order ++ [.plain plainArgs.length]) := by
    intro s' plain' hplain' hmix
    refine ⟨hmix, hplain', ?_, ?_, ?_, h.boxed_nodup, h.boxed_lt⟩
    · intro w hw
      rcases List.mem_append.mp hw with hw | hw
      · exact h.small w hw
      · rw [List.mem_singleton.mp hw]
        exact hsmall
    · refine List.rel_append (h.designates.imp fun index w hw => ?_) (.cons ?_ .nil)
      · have := hw.append [v] [] []
        rwa [List.append_nil, List.append_nil] at this
      · simp [Designates]
    · refine List.nodup_append.mpr ⟨h.nodup, List.nodup_singleton _, ?_⟩
      intro index hindex x hx heq
      obtain rfl := List.mem_singleton.mp hx
      obtain ⟨w, hw⟩ := h.mem_order hindex
      rw [heq] at hw
      exact absurd (List.getElem?_eq_some_iff.mp hw).1 (lt_irrefl _)
  by_cases hmixed : s.mix = s
  · -- mixed storage
    have hs : s = mixed plain boxed order := hmixed.symm.trans h.mix_eq
    subst hs
    unfold push
    rw [if_neg (not_lt.mpr hsmall)]
    refine hplain.bind fun r hr => .ok ⟨r.1, ?_, hr.2⟩
    rw [hr.2]
    refine hstores hr.1 ?_
    rw [h.plain_stores.len_eq]
    rfl
  · -- plain storage
    have hs : plain = s ∧ boxed = [] ∧ order = (List.range plainArgs.length).map .plain := by
      have hmix := h.mix_eq
      have hstores := h.plain_stores
      cases s with
      | mixed plain boxed order => exact absurd rfl hmixed
      | inline values offsets valuesLen argsLen =>
        injection hmix with hp hb ho
        subst hp
        rw [← hstores.len_eq]
        exact ⟨rfl, hb.symm, ho.symm⟩
      | heap values offsets =>
        injection hmix with hp hb ho
        subst hp
        rw [← hstores.len_eq]
        exact ⟨rfl, hb.symm, ho.symm⟩
    obtain ⟨rfl, rfl, rfl⟩ := hs
    refine hplain.mono fun r hr => ⟨r.1, ?_, hr.2⟩
    rw [hr.2]
    refine hstores hr.1 ?_
    rw [mix_of_storesPlain hr.1, List.length_append, List.length_singleton, List.range_succ,
      List.map_append]
    rfl

end Step

/-! ### The pointers -/

section Pointers

variable {plainArgs : List Value} {plain : KernelArgStorage} {boxed : List ErasedArgument}
  {order : List ArgumentIndex}

/-- The pointer of an argument. -/
def ptrOf (plainArgs : List Value) (boxed : List ErasedArgument) : ArgumentIndex → Pointer
  | .plain i => slotPtr (start Value.slots plainArgs i)
  | .boxed i => (boxed[i]?.map ErasedArgument.ptr).getD (slotPtr 0)

/-- The pointers of a plain storage are those of the slots where its arguments start. -/
theorem withParamPtrs_of_storesPlain (h : s.StoresPlain args) :
    s.withParamPtrs = .ok ((List.range args.length).map fun i =>
      slotPtr (start Value.slots args i)) := by
  cases s with
  | mixed plain boxed order => exact h.elim
  | inline values offsets valuesLen argsLen =>
    obtain ⟨hholds, -, hoffsets, -, hmax⟩ := h
    have hmap := congrArg (List.map slotPtr) hholds.offsets_eq
    rw [List.map_map, List.map_map] at hmap
    rw [withParamPtrs, sliceTo_of_le (hoffsets ▸ hmax)]
    exact congrArg Except.ok hmap
  | heap values offsets =>
    rw [withParamPtrs, h.1.offsets_eq, List.map_map]
    rfl

/-- The pointers of a mixed storage, in the order of the pushes. -/
theorem mapM_ptrOf {indices : List ArgumentIndex}
    (h : ∀ index ∈ indices, ∃ v, Designates plainArgs boxed boxes index v) :
    indices.mapM (paramPtr ((List.range plainArgs.length).map fun i =>
      slotPtr (start Value.slots plainArgs i)) boxed) =
        .ok (indices.map (ptrOf plainArgs boxed)) := by
  induction indices with
  | nil => rfl
  | cons index indices ih =>
    obtain ⟨v, hv⟩ := h index List.mem_cons_self
    rw [List.mapM_cons, ih fun x hx => h x (List.mem_cons_of_mem _ hx)]
    cases index with
    | plain i =>
      have hi : i < plainArgs.length := (List.getElem?_eq_some_iff.mp hv).1
      have hindex : (Run.index ((List.range plainArgs.length).map fun i =>
          slotPtr (start Value.slots plainArgs i)) i : Run Unit Pointer) =
            .ok (slotPtr (start Value.slots plainArgs i)) := by
        rw [Run.index_eq_ok, List.getElem?_map, List.getElem?_range hi]
        rfl
      show (Run.index _ i >>= _) = _
      rw [hindex]
      rfl
    | boxed i =>
      obtain ⟨id, hboxed, -⟩ := hv
      show ((Run.index boxed i >>= _) >>= _) = _
      rw [Run.index_eq_ok.mpr hboxed, List.map_cons, ptrOf, hboxed]
      rfl

/-- **The pointers come in the order of the pushes.** -/
theorem Stores.withParamPtrs (h : s.Stores boxes args plainArgs plain boxed order) :
    s.withParamPtrs = .ok (order.map (ptrOf plainArgs boxed)) := by
  have hplain := withParamPtrs_of_storesPlain h.plain_stores
  have hmix := h.mix_eq
  have hstores := h.plain_stores
  cases s with
  | mixed plain' boxed' order' =>
    injection hmix with hp hb ho
    subst hp hb ho
    rw [KernelArgStorage.withParamPtrs, hplain]
    exact mapM_ptrOf fun index hindex => h.mem_order hindex
  | inline values offsets valuesLen argsLen =>
    injection hmix with hp hb ho
    subst hp hb ho
    rw [hplain, List.map_map, hstores.2.2.2.1]
    rfl
  | heap values offsets =>
    injection hmix with hp hb ho
    subst hp hb ho
    have hlen : offsets.length = plainArgs.length := hstores.len_eq
    rw [hplain, List.map_map, hlen]
    rfl

/-- The pointers of earlier arguments stay. -/
theorem ptrOf_append {index : ArgumentIndex} (more : List Value) (moreBoxed : List ErasedArgument)
    (h : Designates plainArgs boxed boxes index v) :
    ptrOf (plainArgs ++ more) (boxed ++ moreBoxed) index = ptrOf plainArgs boxed index := by
  cases index with
  | plain i =>
    rw [ptrOf, ptrOf, start_append (List.getElem?_eq_some_iff.mp h).1.le]
  | boxed i =>
    obtain ⟨id, hboxed, -⟩ := h
    rw [ptrOf, ptrOf, List.getElem?_append_left (List.getElem?_eq_some_iff.mp hboxed).1]

end Pointers

/-- Every offset and every index is in range. -/
def IndicesFit : KernelArgStorage → Prop
  | mixed plain boxed order => plain.IndicesFit ∧
      (∀ i, .plain i ∈ order → i < plain.len) ∧ ∀ i, .boxed i ∈ order → i < boxed.length
  | inline _ offsets valuesLen argsLen => valuesLen ≤ inlineSlots ∧ argsLen ≤ inlineSlots ∧
      ∀ offset ∈ offsets.take argsLen, offset.toNat < valuesLen
  | heap values offsets => ∀ offset ∈ offsets, slotSize * offset < values.length

/-- Every start lies before the end. -/
theorem start_lt {offset : ℕ} (h : offset ∈ (List.range args.length).map (start Value.slots args)) :
    offset < start Value.slots args args.length := by
  obtain ⟨i, hi, rfl⟩ := List.mem_map.mp h
  have hi := List.mem_range.mp hi
  have hend : start Value.slots args i + args[i].slots ≤ start Value.slots args args.length :=
    start_add_le hi (List.getElem?_eq_getElem hi)
  have hpos := args[i].slots_pos
  omega

/-- The offsets of a plain storage are inside its arena. -/
theorem indicesFit_of_storesPlain (h : s.StoresPlain args) : s.IndicesFit := by
  cases s with
  | mixed plain boxed order => exact h.elim
  | inline values offsets valuesLen argsLen =>
    obtain ⟨hholds, hvalues, hoffsets, hcount, hmax⟩ := h
    have hle := hholds.le
    have hslot : slotSize = 16 := rfl
    refine ⟨by rw [hvalues, hslot] at hle; omega, hmax, fun offset hoffset => ?_⟩
    rw [hholds.used_eq]
    exact start_lt (hholds.offsets_eq ▸ List.mem_map_of_mem hoffset)
  | heap values offsets =>
    intro offset hoffset
    have hlt := start_lt (h.1.offsets_eq ▸ hoffset)
    rw [← h.1.used_eq] at hlt
    have hmul := Nat.mul_lt_mul_of_pos_left hlt (show 0 < slotSize by decide)
    rwa [Nat.mul_div_cancel' h.2] at hmul

/-- The offsets of a mixed storage are, too. -/
theorem Stores.indicesFit {plainArgs : List Value} {plain : KernelArgStorage}
    {boxed : List ErasedArgument} {order : List ArgumentIndex}
    (h : s.Stores boxes args plainArgs plain boxed order) : s.IndicesFit := by
  have hplain := indicesFit_of_storesPlain h.plain_stores
  have hmix := h.mix_eq
  have hlen := h.plain_stores.len_eq
  cases s with
  | mixed plain' boxed' order' =>
    injection hmix with hp hb ho
    subst hp hb ho
    refine ⟨hplain, fun i hi => ?_, fun i hi => ?_⟩
    · obtain ⟨v, hv⟩ := h.mem_order hi
      rw [hlen]
      exact (List.getElem?_eq_some_iff.mp hv).1
    · obtain ⟨v, id, hboxed, -⟩ := h.mem_order hi
      exact (List.getElem?_eq_some_iff.mp hboxed).1
  | inline values offsets valuesLen argsLen =>
    injection hmix with hp hb ho
    subst hp
    exact hplain
  | heap values offsets =>
    injection hmix with hp hb ho
    subst hp
    exact hplain

end KernelArgStorage

/-! ### Every sequence of pushes -/

namespace Launcher

open KernelArgStorage

/-- The bytes that belong to an argument: its slots, or its box. -/
def extent (p : Pointer) (v : Value) : ℕ :=
  match p.block with
  | .arena => slotSize * v.slots
  | .box _ => v.bytes.length

/-- The ranges of two arguments do not overlap. -/
def Apart (a b : Pointer × Value) : Prop :=
  a.1.block ≠ b.1.block ∨ a.1.offset + extent a.1 a.2 ≤ b.1.offset ∨
    b.1.offset + extent b.1 b.2 ≤ a.1.offset

/-- One pointer for each argument: it points at the bytes of the argument, at its alignment, and no
two arguments share memory. -/
structure Stored (l : Launcher) (args : List Value) (ptrs : List Pointer) : Prop where
  holds : List.Forall₂ (fun p v => l.read p v.bytes.length = some v.bytes) ptrs args
  aligned : List.Forall₂ (fun p v => v.align ∣ l.blockAlign p.block ∧ v.align ∣ p.offset) ptrs args
  apart : (ptrs.zip args).Pairwise Apart

section Run

variable {l : Launcher} {args plainArgs : List Value} {plain : KernelArgStorage}
  {boxed : List ErasedArgument} {order : List ArgumentIndex} {index index' : ArgumentIndex}
    {v w : Value}

/-- Mixing moves no byte. -/
theorem arena_mix (s : KernelArgStorage) : s.mix.arena = s.arena := by
  cases s <;> rfl

/-- The arena of a plain storage holds its arguments. -/
theorem holds_of_storesPlain (h : plain.StoresPlain args) :
    ∃ used offsets, Holds plain.arena used offsets args := by
  cases plain with
  | mixed plain boxed order => exact h.elim
  | inline values offsets valuesLen argsLen => exact ⟨_, _, h.1⟩
  | heap values offsets => exact ⟨_, _, h.1⟩

/-- A pointer into a block reads the bytes of the block. -/
theorem read_of_block {p : Pointer} {n : ℕ} {bytes : List Byte} (h : l.block p.block = some bytes)
    (hfit : p.offset + n ≤ bytes.length) : l.read p n = some ((bytes.drop p.offset).take n) := by
  rw [read, h]
  exact if_pos hfit

/-- What the pointer of an argument points at. -/
theorem read_ptrOf (h : l.args.Stores l.boxes args plainArgs plain boxed order)
    (hv : Designates plainArgs boxed l.boxes index v) :
    l.read (ptrOf plainArgs boxed index) v.bytes.length = some v.bytes ∧
      v.align ∣ l.blockAlign (ptrOf plainArgs boxed index).block ∧
        v.align ∣ (ptrOf plainArgs boxed index).offset := by
  cases index with
  | plain i =>
    obtain ⟨used, offsets, hholds⟩ := holds_of_storesPlain h.plain_stores
    obtain ⟨hfit, hbytes⟩ := hholds.read hv
    have harena : l.args.arena = plain.arena := by rw [← arena_mix, h.mix_eq]; rfl
    -- a power of two up to 16 divides 16
    have halign : v.align ∣ slotSize := by
      obtain ⟨k, hk⟩ := v.align_pow
      have hle := h.small v (List.mem_of_getElem? hv)
      rw [hk] at hle ⊢
      exact pow_dvd_pow (m := k) (n := 4) 2 ((Nat.pow_le_pow_iff_right (by norm_num)).mp hle)
    refine ⟨?_, halign, halign.trans (dvd_mul_right _ _)⟩
    have hblock : l.block .arena = some plain.arena := congrArg some harena
    exact (read_of_block (p := slotPtr (start Value.slots plainArgs i)) hblock hfit).trans
      (congrArg some hbytes)
  | boxed i =>
    obtain ⟨id, hboxed, hbox⟩ := hv
    have hptr : ptrOf plainArgs boxed (.boxed i) = ⟨.box id, 0⟩ := by rw [ptrOf, hboxed]; rfl
    rw [hptr]
    refine ⟨?_, ?_, dvd_zero _⟩
    · have hblock : l.block (.box id) = some v.bytes := by
        rw [block, hbox]
        rfl
      refine (read_of_block (p := ⟨.box id, 0⟩) hblock (by rw [Nat.zero_add])).trans ?_
      rw [List.drop_zero, List.take_length]
    · show v.align ∣ (l.boxes[id]?.map Value.align).getD 1
      rw [hbox]
      exact dvd_refl _

/-- Two entries of the order stand for memory apart. -/
theorem apart_ptrOf (h : l.args.Stores l.boxes args plainArgs plain boxed order)
    (hv : Designates plainArgs boxed l.boxes index v)
      (hw : Designates plainArgs boxed l.boxes index' w)
    (hne : index ≠ index') :
    Apart (ptrOf plainArgs boxed index, v) (ptrOf plainArgs boxed index', w) := by
  cases index with
  | plain i =>
    -- two values in one block stand at their own offsets
    cases index' with
    | plain j =>
      refine .inr ?_
      show slotSize * start Value.slots plainArgs i + slotSize * v.slots ≤
        slotSize * start Value.slots plainArgs j ∨ _ + slotSize * w.slots ≤ _
      rw [← Nat.mul_add]
      rcases Nat.lt_or_gt_of_ne (fun heq => hne (congrArg _ heq) : i ≠ j) with hlt | hgt
      · exact .inl (Nat.mul_le_mul_left _ (start_add_le hlt hv))
      · refine .inr ?_
        show slotSize * start Value.slots plainArgs j + slotSize * w.slots ≤ _
        rw [← Nat.mul_add]
        exact Nat.mul_le_mul_left _ (start_add_le hgt hw)
    -- a value in the block and one in a box of its own
    | boxed j =>
      obtain ⟨id, hboxed, -⟩ := hw
      refine .inl ?_
      rw [ptrOf, ptrOf, hboxed]
      exact Block.noConfusion
  | boxed i =>
    obtain ⟨id, hboxed, -⟩ := hv
    refine .inl ?_
    -- two boxes have two allocations
    cases index' with
    | plain j =>
      rw [ptrOf, ptrOf, hboxed]
      exact Block.noConfusion
    | boxed j =>
      obtain ⟨id', hboxed', -⟩ := hw
      rw [ptrOf, ptrOf, hboxed, hboxed']
      intro hblock
      injection hblock with hid
      rw [← hid, ← hboxed] at hboxed'
      have hlt := (List.getElem?_eq_some_iff.mp hboxed).1
      exact hne (congrArg _ ((List.getElem?_inj hlt h.boxed_nodup).mp hboxed'.symm))

/-- **Storage that holds the arguments shows them at its pointers.** -/
theorem stored_of_stores (h : l.args.Stores l.boxes args plainArgs plain boxed order) :
    l.Stored args (order.map (ptrOf plainArgs boxed)) := by
  refine ⟨?_, ?_, ?_⟩
  · rw [List.forall₂_map_left_iff]
    exact h.designates.imp fun index v hv => (read_ptrOf h hv).1
  · rw [List.forall₂_map_left_iff]
    exact h.designates.imp fun index v hv => (read_ptrOf h hv).2
  · rw [List.pairwise_iff_getElem]
    intro i j hi hj hij
    simp only [List.length_zip, List.length_map, lt_min_iff] at hi hj
    simp only [List.getElem_zip, List.getElem_map]
    refine apart_ptrOf h (h.designates.get hi.1 hi.2) (h.designates.get hj.1 hj.2) ?_
    exact fun heq => absurd (h.nodup.getElem_inj_iff.mp heq) (by omega)

/-- One more push: the pointers so far stay, and show the same bytes. -/
theorem step_stores (h : l.args.Stores l.boxes args plainArgs plain boxed order) (push : Push) :
    (l.step push).Returns fun l' => ∃ plainArgs' plain' boxed' index,
      l'.args.Stores l'.boxes (args ++ [push.value]) plainArgs' plain' boxed' (order ++ [index]) ∧
        order.map (ptrOf plainArgs' boxed') = order.map (ptrOf plainArgs boxed) := by
  have hbox : ∀ v : Value, (l.args.pushBox ⟨.box l.boxes.length, 0⟩).Returns fun s' =>
      ∃ plainArgs' plain' boxed' index,
        s'.Stores (l.boxes ++ [v]) (args ++ [v]) plainArgs' plain' boxed' (order ++ [index]) ∧
          order.map (ptrOf plainArgs' boxed') = order.map (ptrOf plainArgs boxed) := by
    intro v
    refine (h.pushBox v).mono fun s' hs' => ⟨_, _, _, _, hs', ?_⟩
    refine List.map_congr_left fun index hindex => ?_
    obtain ⟨w, hw⟩ := h.mem_order hindex
    have := ptrOf_append [] [⟨⟨.box l.boxes.length, 0⟩⟩] hw
    rwa [List.append_nil] at this
  cases push with
  | pushBox v => exact (hbox v).bind fun s' hs' => .ok hs'
  | push v =>
    by_cases hsmall : v.align ≤ slotSize
    · refine (h.push_small hsmall).bind fun r hr => .ok ?_
      obtain ⟨plain', hstores, -⟩ := hr
      refine ⟨_, _, _, _, hstores, List.map_congr_left fun index hindex => ?_⟩
      obtain ⟨w, hw⟩ := h.mem_order hindex
      have := ptrOf_append [v] [] hw
      rwa [List.append_nil] at this
    · have hpush : l.args.push v l.boxes = (do
          let s ← l.args.pushBox ⟨.box l.boxes.length, 0⟩
          .ok (s, l.boxes ++ [v])) := by
        unfold KernelArgStorage.push
        rw [if_pos (not_le.mp hsmall)]
      show (l.args.push v l.boxes >>= _).Returns _
      rw [hpush]
      refine Run.Returns.bind ((hbox v).bind (Q := fun r => ∃ plainArgs' plain' boxed' index,
        r.1.Stores r.2 (args ++ [v]) plainArgs' plain' boxed' (order ++ [index]) ∧
          order.map (ptrOf plainArgs' boxed') = order.map (ptrOf plainArgs boxed))
        fun s' hs' => .ok hs') fun r hr => .ok hr

/-- Every sequence of pushes leaves a storage of its values. -/
theorem run_stores (pushes : List Push) : (run pushes).Returns fun l =>
    ∃ plainArgs plain boxed order,
      l.args.Stores l.boxes (pushes.map Push.value) plainArgs plain boxed order := by
  induction pushes using List.reverseRecOn with
  | nil => exact .ok ⟨_, _, _, _, stores_empty⟩
  | append_singleton pushes push ih =>
    obtain ⟨l, hl, plainArgs, plain, boxed, order, hstores⟩ := ih
    rw [run, List.foldlM_append]
    refine .bind_ok hl ?_
    rw [List.foldlM_cons]
    refine (step_stores hstores push).bind fun l' hl' => .ok ?_
    obtain ⟨plainArgs', plain', boxed', index, hstores', -⟩ := hl'
    rw [List.map_append]
    exact ⟨_, _, _, _, hstores'⟩

end Run

/-- **After every sequence of pushes** there is one pointer for each argument, in order; it points
at the bytes of the argument, aligned and apart from all others, all offsets and indices are in
range, and one more push keeps the pointers and what they point at. -/
theorem kernel_args_stored (pushes : List Push) : ∃ l ptrs, run pushes = .ok l ∧
    l.args.IndicesFit ∧ l.args.withParamPtrs = .ok ptrs ∧ l.Stored (pushes.map Push.value) ptrs ∧
      ∀ push, ∃ l' p, l.step push = .ok l' ∧ l'.args.withParamPtrs = .ok (ptrs ++ [p]) ∧
        l'.Stored (pushes.map Push.value ++ [push.value]) (ptrs ++ [p]) := by
  obtain ⟨l, hl, plainArgs, plain, boxed, order, hstores⟩ := run_stores pushes
  refine ⟨l, _, hl, hstores.indicesFit, hstores.withParamPtrs, stored_of_stores hstores,
    fun push => ?_⟩
  obtain ⟨l', hl', plainArgs', plain', boxed', index, hstores', hptrs⟩ := step_stores hstores push
  have hsame : (order ++ [index]).map (ptrOf plainArgs' boxed') =
      order.map (ptrOf plainArgs boxed) ++ [ptrOf plainArgs' boxed' index] := by
    rw [List.map_append, hptrs]
    rfl
  refine ⟨l', ptrOf plainArgs' boxed' index, hl', ?_, ?_⟩
  · rw [← hsame]
    exact hstores'.withParamPtrs
  · rw [← hsame]
    exact stored_of_stores hstores'

end Launcher

end CudaOxide.Async
