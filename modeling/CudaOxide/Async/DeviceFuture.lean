import CudaOxide.Lib.System

namespace CudaOxide.Async.DeviceFuture

open Lib

/-!
# Polling a device future

A future that waits for its slot is polled again and again, each time with a waker that may be a new
one, while the device, the scanner and the driver go on (`DeviceFuture::poll`, `StreamCallbackState`
and the retirement of a slot in `reactor.rs`).

* `Step` — every load, store, probe and wake is a step of its own; `AtomicWaker` holds one waker,
  and a wake takes it.
* `State.Lost` — the last poll returned `Pending`, the slot has been retired, and the waker of that
  poll has not been woken.
* `Timely` — no fault is signalled to an older waker between the probe and the registration of a
  poll.
-/

/-- Where `poll` stands. -/
inductive PollPoint where
  /-- not polled yet -/
  | fresh
  /-- the first poll has registered its waker -/
  | starting
  /-- and the flag write and the slot -/
  | armed
  /-- `Pending` has been returned -/
  | pending
  | entered
  /-- the completed flag was not set -/
  | checked
  /-- the stream was busy or capturing -/
  | probed
  /-- the waker is registered -/
  | registered
  /-- `Ready` has been returned -/
  | ready
  deriving DecidableEq

/-- What has become of the registration of the future. -/
inductive Slot where
  | none
  | armed
  /-- the scanner has seen the flag, and is to signal -/
  | landed
  /-- the completed flag is stored, and the wake is to follow -/
  | completed
  /-- the scanner has seen the fault, and is to wake -/
  | dead
  | retired
  deriving DecidableEq

/-- One future, its shared state, its slot and its stream.  `current` is the waker of the last
poll. -/
structure State (W : Type) where
  point : PollPoint
  current : Option W
  /-- the waker of the last poll has been woken since that poll began -/
  woken : Bool
  waker : Option W
  complete : Bool
  slot : Slot
  /-- the flag write has landed -/
  flag : Bool
  /-- the context has faulted; the error stays -/
  faulted : Bool

variable {W : Type} [DecidableEq W]

/-- `AtomicWaker::wake` takes the registered waker. -/
def State.wake (st : State W) : State W :=
  { st with
    waker := none
    woken := st.woken || (st.waker.isSome && decide (st.waker = st.current)) }

/-- One step of the poll, of the scanner or of the device. -/
inductive Step : State W → State W → Prop
  /-- the first poll registers its waker before it executes the operation -/
  | first {st : State W} (w : W) (hp : st.point = .fresh) :
      Step st { st with point := .starting, current := some w, woken := false, waker := some w }
  /-- the operation or the registration failed, or the stream was done within the spin budget -/
  | spun {st : State W} (hp : st.point = .starting) : Step st { st with point := .ready }
  | arm {st : State W} (hp : st.point = .starting) :
      Step st { st with point := .armed, slot := .armed }
  | suspend {st : State W} (hp : st.point = .armed) : Step st { st with point := .pending }
  | enter {st : State W} (w : W) (hp : st.point = .pending) :
      Step st { st with point := .entered, current := some w, woken := false }
  | checkDone {st : State W} (hp : st.point = .entered) (hc : st.complete = true) :
      Step st { st with point := .ready }
  | check {st : State W} (hp : st.point = .entered) (hc : st.complete = false) :
      Step st { st with point := .checked }
  /-- the probe reports the fault, or an idle stream -/
  | probeDone {st : State W} (hp : st.point = .checked) : Step st { st with point := .ready }
  /-- the stream is busy or capturing; a fault that is there would be reported -/
  | probe {st : State W} (hp : st.point = .checked) (hf : st.faulted = false) :
      Step st { st with point := .probed }
  | register {st : State W} (hp : st.point = .probed) :
      Step st { st with point := .registered, waker := st.current }
  | recheckDone {st : State W} (hp : st.point = .registered) (hc : st.complete = true) :
      Step st { st with point := .ready }
  | recheck {st : State W} (hp : st.point = .registered) (hc : st.complete = false) :
      Step st { st with point := .pending }
  /-- the device writes the flag -/
  | land {st : State W} (hs : st.slot ≠ .none) (hf : st.faulted = false) :
      Step st { st with flag := true }
  | fault {st : State W} : Step st { st with faulted := true }
  | scanLanded {st : State W} (hs : st.slot = .armed) (hflag : st.flag = true) :
      Step st { st with slot := .landed }
  | scanDead {st : State W} (hs : st.slot = .armed) (hflag : st.flag = false)
      (hf : st.faulted = true) : Step st { st with slot := .dead }
  /-- `signal`, first step -/
  | storeComplete {st : State W} (hs : st.slot = .landed) :
      Step st { st with complete := true, slot := .completed }
  /-- `signal`, second step -/
  | wakeCompleted {st : State W} (hs : st.slot = .completed) :
      Step st { st.wake with slot := .retired }
  /-- `wake` without completion -/
  | wakeDead {st : State W} (hs : st.slot = .dead) : Step st { st.wake with slot := .retired }

/-- A future that has not been polled. -/
def State.initial : State W :=
  ⟨.fresh, none, false, none, false, .none, false, false⟩

/-- The runs of one future, its reactor and its wakers. -/
def deviceFuture (W : Type) [DecidableEq W] : System (State W) where
  Init st := st = .initial
  Step := Step

/-- The task waits for a wake that will not come. -/
def State.Lost (st : State W) : Prop :=
  st.point = .pending ∧ st.slot = .retired ∧ st.woken = false

/-- The step is no wake for a fault while a poll with another waker stands between its probe and its
registration. -/
def Timely (st st' : State W) : Prop :=
  st.slot = .dead → st'.slot = .retired → st.point = .probed → st.waker = st.current

instance (st st' : State W) : Decidable (Timely st st') :=
  inferInstanceAs (Decidable (st.slot = .dead → st'.slot = .retired → st.point = .probed →
    st.waker = st.current))

/-- The runs whose steps are timely. -/
def timelyFuture (W : Type) [DecidableEq W] : System (State W) where
  Init st := st = .initial
  Step st st' := Step st st' ∧ Timely st st'

/-! ### The invariant -/

/-- What holds in every state of a timely run. -/
structure Kept (st : State W) : Prop where
  /-- a poll that waits, or is about to, has its waker registered until the slot is retired -/
  waiting : st.point = .starting ∨ st.point = .armed ∨ st.point = .pending ∨
    st.point = .registered → st.slot ≠ .retired → st.waker = st.current
  started : st.point ≠ .fresh → st.current.isSome = true
  fresh : st.point = .fresh ∨ st.point = .starting → st.slot = .none
  completed : st.slot = .completed → st.complete = true
  dead : st.slot = .dead → st.faulted = true
  retired : st.slot = .retired → st.complete = true ∨ st.faulted = true
  /-- the retirement is noticed by the second look at the flag, or it woke the poll -/
  noticed : st.point = .probed ∨ st.point = .registered → st.slot = .retired →
    st.complete = true ∨ st.woken = true
  woken : st.point = .armed ∨ st.point = .pending → st.slot = .retired → st.woken = true

namespace Kept

variable {st st' : State W}

omit [DecidableEq W] in

/-- Nothing is owed to a future that was not polled. -/
theorem initial : Kept (State.initial : State W) := by
  constructor <;> simp [State.initial]

/-- The poll whose waker is registered is woken. -/
theorem wake_woken (h : Kept st) (hstarted : st.point ≠ .fresh) (hwaker : st.waker = st.current) :
    st.wake.woken = true := by
  have hsome := h.started hstarted
  simp [State.wake, hsome, hwaker]

/-- The slot is retired, and the registered waker woken. -/
theorem retire (h : Kept st) (hs : st.slot = .completed ∨ st.slot = .dead)
    (hend : st.complete = true ∨
      st.faulted = true ∧ (st.point = .probed → st.waker = st.current)) :
    Kept { st.wake with slot := .retired } := by
  have hlive : st.slot ≠ .retired := by
    rcases hs with hs | hs <;> rw [hs] <;> decide
  have hwaits : st.point = .armed ∨ st.point = .pending ∨ st.point = .registered →
      st.wake.woken = true := by
    intro hp
    refine h.wake_woken ?_ (h.waiting (.inr hp) hlive)
    rcases hp with hp | hp | hp <;> rw [hp] <;> decide
  refine ⟨fun _ hne => absurd rfl hne, h.started, ?_, nofun, nofun, fun _ => ?_, ?_, ?_⟩
  · intro hp
    have hnone := h.fresh hp
    rcases hs with hs | hs <;> rw [hs] at hnone <;> cases hnone
  · exact hend.imp_right fun hfault => hfault.1
  · intro hp _
    rcases hp with hp | hp
    · rcases hend with hcomplete | hfault
      · exact .inl hcomplete
      · have hstarted : st.point ≠ .fresh := by
          intro hfresh
          cases hp.symm.trans hfresh
        exact .inr (h.wake_woken hstarted (hfault.2 hp))
    · exact .inr (hwaits (.inr (.inr hp)))
  · intro hp _
    exact hwaits (hp.imp_right .inl)

/-- A timely step keeps it: a waker that is registered was registered before the last look at the
flag. -/
theorem step (h : Kept st) (hstep : Step st st') (htimely : Timely st st') : Kept st' := by
  cases hstep with
  | wakeCompleted hs => exact h.retire (.inl hs) (.inl (h.completed hs))
  | wakeDead hs => exact h.retire (.inr hs) (.inr ⟨h.dead hs, htimely hs rfl⟩)
  | _ =>
    -- the wakes apart, a step changes one or two fields
    obtain ⟨h1, h2, h3, h4, h5, h6, h7, h8⟩ := h
    constructor <;> grind

/-- It holds in every state of a timely run. -/
theorem reachable (h : (timelyFuture W).Reachable st) : Kept st := by
  refine h.invariant (I := Kept) (fun s hs => ?_) (fun s s' hs hstep => ?_)
  · obtain rfl : s = .initial := hs
    exact initial
  · obtain ⟨hstep, htimely⟩ : Step s s' ∧ Timely s s' := hstep
    exact hs.step hstep htimely

end Kept

/-! ### Lost polls -/

/-- **No wake is lost in a timely run.**  Where no fault is signalled to an older waker between the
probe of a poll and the registration of its waker, the last poll to return `Pending` is woken by the
time its slot is retired. -/
theorem poll_not_lost {st : State W} (h : (timelyFuture W).Reachable st) : ¬st.Lost := by
  rintro ⟨hp, hs, hwoken⟩
  have hkept := (Kept.reachable h).woken (.inr hp) hs
  rw [hwoken] at hkept
  cases hkept

/-- The future is polled again with the waker `true`, which the fault wakes. -/
theorem poll_not_lost_again : ∃ st : State Bool, st.current = some true ∧ st.point = .pending ∧
    st.slot = .retired ∧ ¬st.Lost := by
  have h0 : (timelyFuture Bool).Reachable .initial := .init rfl
  have h1 := h0.step ⟨.first false rfl, by decide⟩
  have h2 := h1.step ⟨.arm rfl, by decide⟩
  have h3 := h2.step ⟨.suspend rfl, by decide⟩
  have h4 := h3.step ⟨.enter true rfl, by decide⟩
  have h5 := h4.step ⟨.check rfl rfl, by decide⟩
  have h6 := h5.step ⟨.probe rfl rfl, by decide⟩
  have h7 := h6.step ⟨.register rfl, by decide⟩
  have h8 := h7.step ⟨.recheck rfl rfl, by decide⟩
  have h9 := h8.step ⟨.fault, by decide⟩
  have h10 := h9.step ⟨.scanDead rfl rfl rfl, by decide⟩
  have h11 := h10.step ⟨.wakeDead rfl, by decide⟩
  exact ⟨_, rfl, rfl, rfl, poll_not_lost h11⟩

/-- A second poll probes the stream, which then faults; the scanner wakes the waker of the first
poll, and the second one registers its own too late. -/
theorem poll_lost_fault : ∃ st : State Bool, (deviceFuture Bool).Reachable st ∧ st.Lost := by
  have h0 : (deviceFuture Bool).Reachable .initial := .init rfl
  have h1 := h0.step (.first false rfl)
  have h2 := h1.step (.arm rfl)
  have h3 := h2.step (.suspend rfl)
  have h4 := h3.step (.enter true rfl)
  have h5 := h4.step (.check rfl rfl)
  have h6 := h5.step (.probe rfl rfl)
  have h7 := h6.step .fault
  have h8 := h7.step (.scanDead rfl rfl rfl)
  have h9 := h8.step (.wakeDead rfl)
  have h10 := h9.step (.register rfl)
  have h11 := h10.step (.recheck rfl rfl)
  exact ⟨_, h11, rfl, rfl, rfl⟩

end CudaOxide.Async.DeviceFuture
