import CudaOxide.Lib.Bitmap
import CudaOxide.Lib.System

namespace CudaOxide.Async

open Lib

/-!
# The completion-slot table

The protocol of `slot_table.rs`: registrants take slots from a free list, arm them and publish their
payload; the device writes the completion flags; one scanner retires the slots whose flag is set or
whose payload is dead.  Every atomic operation, every access to a payload cell and every critical
section of the free list is one step.

* `SlotTable` and its operations are those of the source, on the words of the active bitmap, the
  flags, the payload cells, the free list and the armed counter.
* `Step` — what any of the threads does next: the calls of `reactor.rs::register` in their order,
  the device's flag writes at any time after arming, and the loops of `scan_inner`.
* Three things are recorded that no thread reads: whose write a flag holds (`lastWrite`), who moved
  a payload in (`Payload.owner`), and which payloads the probe has reported (`reported`).
-/

/-! ### The armed counter -/

/-- `fetch_add` on a `usize`, which wraps. -/
def fetchAdd (a n : ℕ) : ℕ := if a + n < 2 ^ 64 then a + n else a + n - 2 ^ 64

/-- `fetch_sub` on a `usize`, which wraps. -/
def fetchSub (a n : ℕ) : ℕ := if n ≤ a then a - n else a + 2 ^ 64 - n

/-! ### The table -/

/-- A payload, and the registration that moves it in and out. -/
structure Payload (ρ P : Type) where
  owner : ρ
  value : P
  deriving DecidableEq

/-- The shared memory of the protocol. -/
structure SlotTable (ρ P : Type) where
  flags : ℕ → UInt32
  /-- who wrote the flag since it was last cleared -/
  lastWrite : ℕ → Option ρ
  active : Bitmap
  payload : ℕ → Option (Payload ρ P)
  /-- a stack, its top at the end -/
  free : List ℕ
  nArmed : ℕ

namespace SlotTable

variable {ρ P : Type}

/-- `SlotTable::new`; the flags are the caller's. -/
def new (numSlots : ℕ) (flags : ℕ → UInt32) : SlotTable ρ P where
  flags
  lastWrite _ := none
  active _ := 0
  payload _ := none
  free := (List.range numSlots).reverse
  nArmed := 0

/-- `is_idle`: the park gate of the scanner. -/
def isIdle (t : SlotTable ρ P) : Bool := t.nArmed == 0

/-- `claim`: the critical section that pops a slot. -/
def claim (t : SlotTable ρ P) : Option (ℕ × SlotTable ρ P) :=
  t.free.getLast?.map fun slot => (slot, { t with free := t.free.dropLast })

/-- `release`, which also is one pass of `append`: the critical section that returns slots. -/
def recycle (t : SlotTable ρ P) (slots : List ℕ) : SlotTable ρ P :=
  { t with free := t.free ++ slots }

/-- `release`: the slot is free again. -/
def release (t : SlotTable ρ P) (slot : ℕ) : SlotTable ρ P := t.recycle [slot]

/-- `reset_flag`: whatever was written to the slot before is forgotten. -/
def resetFlag (t : SlotTable ρ P) (slot : ℕ) : SlotTable ρ P :=
  { t with flags := Function.update t.flags slot 0
           lastWrite := Function.update t.lastWrite slot none }

/-- The flag write that the device executes for `r`. -/
def writeFlag (t : SlotTable ρ P) (slot : ℕ) (r : ρ) : SlotTable ρ P :=
  { t with flags := Function.update t.flags slot 1
           lastWrite := Function.update t.lastWrite slot (some r) }

/-- `publish`, first step: the payload is written. -/
def storePayload (t : SlotTable ρ P) (slot : ℕ) (p : Payload ρ P) : SlotTable ρ P :=
  { t with payload := Function.update t.payload slot (some p) }

/-- `publish`, second step: `n_armed.fetch_add(1)`. -/
def countArmed (t : SlotTable ρ P) : SlotTable ρ P :=
  { t with nArmed := fetchAdd t.nArmed 1 }

/-- `publish`, third step: the active bit is set. -/
def setActive (t : SlotTable ρ P) (slot : ℕ) : SlotTable ρ P :=
  { t with active := t.active.insert slot }

/-- `scan_inner`: the active bit of a slot is cleared. -/
def clearActive (t : SlotTable ρ P) (slot : ℕ) : SlotTable ρ P :=
  { t with active := t.active.erase slot }

/-- `scan_inner`: the payload is taken out. -/
def takePayload (t : SlotTable ρ P) (slot : ℕ) : SlotTable ρ P :=
  { t with payload := Function.update t.payload slot none }

/-- `scan_inner`: `n_armed.fetch_sub(n)`. -/
def uncountArmed (t : SlotTable ρ P) (n : ℕ) : SlotTable ρ P :=
  { t with nArmed := fetchSub t.nArmed n }

/-- A claim takes the last free slot. -/
theorem claim_eq_some {t t' : SlotTable ρ P} {slot : ℕ} :
    t.claim = some (slot, t') ↔
      ∃ rest, t.free = rest ++ [slot] ∧ t' = { t with free := rest } := by
  unfold claim
  constructor
  · intro h
    obtain ⟨s, hs, heq⟩ := Option.map_eq_some_iff.mp h
    cases heq
    exact ⟨t.free.dropLast, (List.dropLast_append_getLast? slot hs).symm, rfl⟩
  · rintro ⟨rest, hfree, rfl⟩
    rw [hfree, List.getLast?_concat, List.dropLast_concat]
    rfl

end SlotTable

/-! ### The threads -/

/-- How far a registration is with the slot it holds. -/
inductive Stage (P : Type) where
  | claimed
  | reset
  | stored (payload : P)
  | counted (payload : P) (wasIdle : Bool)
  deriving DecidableEq

/-- A call of `register`. -/
inductive Registrant (P : Type) where
  | idle
  | holding (slot : ℕ) (stage : Stage P)
  | published (slot : ℕ) (payload : P) (wasIdle : Bool)
  | released (slot : ℕ)
  deriving DecidableEq

/-- The flag write of a registration: `cuStreamWriteValue32` enqueues it, and the device executes it
some time later. -/
inductive FlagWrite where
  | none
  | queued (slot : ℕ)
  | done
  deriving DecidableEq

/-- Where the loops of `scan_inner` stand. -/
inductive ScanPoint (ρ : Type) where
  /-- before the load of the current word -/
  | nextWord
  /-- at the head of the loop over the bits of the word -/
  | nextBit
  /-- the flag was not set, and the payload is to be probed -/
  | probe (slot : ℕ)
  /-- the slot is landed, with the flag written by `writer`, or dead -/
  | clear (slot : ℕ) (landed : Bool) (writer : Option ρ)
  | take (slot : ℕ) (landed : Bool) (writer : Option ρ)
  /-- before the retired slots go back to the free list -/
  | recycle
  /-- before the counter is decremented -/
  | subtract (n : ℕ)
  deriving DecidableEq

/-- The local variables of `scan_inner`. -/
structure Scan (ρ : Type) where
  probing : Bool
  word : ℕ
  bits : BitVec 64
  retired : List ℕ
  anyActive : Bool
  point : ScanPoint ρ
  deriving DecidableEq

/-- A payload that a scan handed to its `woken` list, and whose flag write the scan saw. -/
structure Delivery (ρ P : Type) where
  payload : Payload ρ P
  writer : Option ρ
  deriving DecidableEq

/-- All threads and the memory they share.  `woken` and `dead` collect what all scans handed out. -/
structure State (ρ P : Type) where
  table : SlotTable ρ P
  regs : ρ → Registrant P
  device : ρ → FlagWrite
  scan : Option (Scan ρ)
  woken : List (Delivery ρ P)
  dead : List (Payload ρ P)
  /-- the registrations whose payload the probe has reported dead -/
  reported : ρ → Bool

namespace State

variable {ρ P : Type} [DecidableEq ρ]

/-- The registration of `r` becomes `x`. -/
def setReg (st : State ρ P) (r : ρ) (x : Registrant P) : State ρ P :=
  { st with regs := Function.update st.regs r x }

/-- The write of `r`'s device becomes `x`. -/
def setDevice (st : State ρ P) (r : ρ) (x : FlagWrite) : State ρ P :=
  { st with device := Function.update st.device r x }

end State

/-- `num_slots.div_ceil(64)` -/
def numWords (numSlots : ℕ) : ℕ := (numSlots + 63) / 64

variable {ρ P : Type} [DecidableEq ρ]

/-- The scan that begins at the first word. -/
def Scan.start (probing : Bool) : Scan ρ := ⟨probing, 0, 0, [], false, .nextWord⟩

/-- What the scan does with a payload it has taken. -/
def State.handOut (st : State ρ P) (sc : Scan ρ) (landed : Bool) (writer : Option ρ) :
    Option (Payload ρ P) → State ρ P
  | some p =>
    if landed then { st with woken := st.woken ++ [⟨p, writer⟩] }
    else if sc.probing then { st with dead := st.dead ++ [p] }
    else st
  | none => st

/-- One step of one thread, in any order with the steps of the others. -/
inductive Step (numSlots : ℕ) : State ρ P → State ρ P → Prop
  | claim {st : State ρ P} {r : ρ} {slot : ℕ} {t : SlotTable ρ P} (hr : st.regs r = .idle)
      (ht : st.table.claim = some (slot, t)) :
      Step numSlots st ({ st with table := t }.setReg r (.holding slot .claimed))
  | release {st : State ρ P} {r : ρ} {slot : ℕ} {stage : Stage P}
      (hr : st.regs r = .holding slot stage) (hstage : stage = .claimed ∨ stage = .reset)
      (hw : st.device r = .none) :
      Step numSlots st ({ st with table := st.table.release slot }.setReg r (.released slot))
  | resetFlag {st : State ρ P} {r : ρ} {slot : ℕ} (hr : st.regs r = .holding slot .claimed) :
      Step numSlots st
        ({ st with table := st.table.resetFlag slot }.setReg r (.holding slot .reset))
  /-- also after publishing, as the tests of the table do -/
  | arm {st : State ρ P} {r : ρ} {slot : ℕ}
      (hr : (∃ stage, stage ≠ .claimed ∧ st.regs r = .holding slot stage) ∨
        ∃ p b, st.regs r = .published slot p b)
      (hw : st.device r = .none) : Step numSlots st (st.setDevice r (.queued slot))
  /-- a payload that is reported dead has no later flag write -/
  | writeFlag {st : State ρ P} {r : ρ} {slot : ℕ} (hw : st.device r = .queued slot)
      (halive : st.reported r = false) :
      Step numSlots st ({ st with table := st.table.writeFlag slot r }.setDevice r .done)
  | storePayload {st : State ρ P} {r : ρ} {slot : ℕ} (p : P)
      (hr : st.regs r = .holding slot .reset) :
      Step numSlots st ({ st with table := st.table.storePayload slot ⟨r, p⟩ }.setReg r
        (.holding slot (.stored p)))
  | countArmed {st : State ρ P} {r : ρ} {slot : ℕ} {p : P}
      (hr : st.regs r = .holding slot (.stored p)) :
      Step numSlots st ({ st with table := st.table.countArmed }.setReg r
        (.holding slot (.counted p st.table.isIdle)))
  | setActive {st : State ρ P} {r : ρ} {slot : ℕ} {p : P} {b : Bool}
      (hr : st.regs r = .holding slot (.counted p b)) :
      Step numSlots st ({ st with table := st.table.setActive slot }.setReg r (.published slot p b))
  /-- `scan_once` or `scan_probing` is called -/
  | scanStart {st : State ρ P} (probing : Bool) (hs : st.scan = none) :
      Step numSlots st { st with scan := some (.start probing) }
  | scanWord {st : State ρ P} {sc : Scan ρ} (hs : st.scan = some sc) (hp : sc.point = .nextWord)
      (hword : sc.word < numWords numSlots) :
      Step numSlots st { st with scan := some { sc with
        bits := st.table.active sc.word
        anyActive := sc.anyActive || st.table.active sc.word != 0
        point := .nextBit } }
  /-- no bits are left, or the next one is that of no slot -/
  | scanWordEnd {st : State ρ P} {sc : Scan ρ} (hs : st.scan = some sc) (hp : sc.point = .nextBit)
      (hbits : sc.bits = 0 ∨ numSlots ≤ sc.word * 64 + Bitmap.lowest sc.bits) :
      Step numSlots st { st with scan := some { sc with word := sc.word + 1, point := .nextWord } }
  | scanFlag {st : State ρ P} {sc : Scan ρ} {slot : ℕ} (hs : st.scan = some sc)
      (hp : sc.point = .nextBit) (hbits : sc.bits ≠ 0)
      (hslot : slot = sc.word * 64 + Bitmap.lowest sc.bits) (hlt : slot < numSlots) :
      Step numSlots st { st with scan := some { sc with
        bits := Bitmap.dropLowest sc.bits
        point := if st.table.flags slot = 1 then .clear slot true (st.table.lastWrite slot)
          else if sc.probing then .probe slot else .nextBit } }
  | scanDead {st : State ρ P} {sc : Scan ρ} {slot : ℕ} {p : Payload ρ P} (hs : st.scan = some sc)
      (hp : sc.point = .probe slot) (hpayload : st.table.payload slot = some p) :
      Step numSlots st { st with
        scan := some { sc with point := .clear slot false none }
        reported := Function.update st.reported p.owner true }
  /-- the payload is alive, or there is none -/
  | scanAlive {st : State ρ P} {sc : Scan ρ} {slot : ℕ} (hs : st.scan = some sc)
      (hp : sc.point = .probe slot) :
      Step numSlots st { st with scan := some { sc with point := .nextBit } }
  | scanClear {st : State ρ P} {sc : Scan ρ} {slot : ℕ} {landed : Bool} {writer : Option ρ}
      (hs : st.scan = some sc) (hp : sc.point = .clear slot landed writer) :
      Step numSlots st { st with
        table := st.table.clearActive slot
        scan := some { sc with point := .take slot landed writer } }
  | scanTake {st : State ρ P} {sc : Scan ρ} {slot : ℕ} {landed : Bool} {writer : Option ρ}
      (hs : st.scan = some sc) (hp : sc.point = .take slot landed writer) :
      Step numSlots st ({ st with
        table := st.table.takePayload slot
        scan := some { sc with retired := sc.retired ++ [slot], point := .nextBit } }.handOut sc
          landed writer (st.table.payload slot))
  | scanWordsEnd {st : State ρ P} {sc : Scan ρ} (hs : st.scan = some sc)
      (hp : sc.point = .nextWord) (hword : numWords numSlots ≤ sc.word) :
      Step numSlots st { st with scan :=
        if sc.retired = [] then none else some { sc with point := .recycle } }
  | scanRecycle {st : State ρ P} {sc : Scan ρ} (hs : st.scan = some sc) (hp : sc.point = .recycle) :
      Step numSlots st { st with
        table := st.table.recycle sc.retired
        scan := some { sc with retired := [], point := .subtract sc.retired.length } }
  | scanEnd {st : State ρ P} {sc : Scan ρ} {n : ℕ} (hs : st.scan = some sc)
      (hp : sc.point = .subtract n) :
      Step numSlots st { st with table := st.table.uncountArmed n, scan := none }

/-- The table as `new` builds it, with any flags, and no thread started. -/
def State.initial (numSlots : ℕ) (flags : ℕ → UInt32) : State ρ P where
  table := .new numSlots flags
  regs _ := .idle
  device _ := .none
  scan := none
  woken := []
  dead := []
  reported _ := false

/-- The protocol over `numSlots` slots: any number of registrations, the device and the scanner. -/
def protocol (ρ P : Type) [DecidableEq ρ] (numSlots : ℕ) : System (State ρ P) where
  Init st := ∃ flags, st = .initial numSlots flags
  Step := Step numSlots

end CudaOxide.Async
