import CudaOxide.Async.Protocol

namespace CudaOxide.Async

open Lib

/-!
# The sleeping scanner

The scanner thread of `reactor.rs` parks while no slot is armed, and a registration that arms the
first one unparks it.

* `Scanner`, `ReactorStep` — the loop of `scan_loop` around the scans of the slot table, with the
  token of `thread::park`; registrations publish and unpark at any time in between.
* `Wakes` — the invariant: from a successful idle check on, the counter is zero, or the token is
  there, or a registration is about to unpark.
* `scanner_never_sleeps` — the scanner is not left parked while a slot is armed.
-/

/-- Where the loop of the scanner stands. -/
inductive Scanner where
  /-- before `scan_once` -/
  | top
  /-- in `scan_once`, before which `handed` payloads had been handed out -/
  | scanning (handed : ℕ)
  /-- before the idle check -/
  | checking
  /-- in the probing pass of the slow phase -/
  | probing
  /-- the check has found nothing armed -/
  | parking
  /-- blocked in `thread::park` -/
  | parked
  deriving DecidableEq

namespace Scanner

/-- The scanner works on the table. -/
def Scans : Scanner → Prop
  | scanning _ | probing => True
  | _ => False

/-- The scanner sleeps or is about to. -/
def Sleeps : Scanner → Prop
  | parking | parked => True
  | _ => False

end Scanner

/-- The slot table with its threads, the loop of the scanner, its park token, and the registrations
that have called `unpark`. -/
structure ReactorState (ρ P : Type) where
  slots : State ρ P
  scanner : Scanner
  token : Bool
  unparked : ρ → Bool

variable {ρ P : Type} [DecidableEq ρ]

/-- One step of the scanner thread, of a registration, or of the device. -/
inductive ReactorStep (n : ℕ) : ReactorState ρ P → ReactorState ρ P → Prop
  /-- a registration or the device moves -/
  | others {st : ReactorState ρ P} {slots : State ρ P} (hstep : Step n st.slots slots)
      (hscan : slots.scan = st.slots.scan) : ReactorStep n st { st with slots }
  /-- `reactor.scanner.unpark()`, after a `publish` that found nothing armed -/
  | unpark {st : ReactorState ρ P} {r : ρ} {s : ℕ} {p : P}
      (hr : st.slots.regs r = .published s p true) (hfirst : st.unparked r = false) :
      ReactorStep n st
        { st with token := true, unparked := Function.update st.unparked r true }
  | scanOnce {st : ReactorState ρ P} (hs : st.scanner = .top) (hscan : st.slots.scan = none) :
      ReactorStep n st
        { st with slots := { st.slots with scan := some (.start false) }
                  scanner := .scanning st.slots.woken.length }
  | scan {st : ReactorState ρ P} {slots : State ρ P} (hs : st.scanner.Scans)
      (hscan : st.slots.scan ≠ none) (hstep : Step n st.slots slots) :
      ReactorStep n st { st with slots }
  /-- what was handed out is signalled, and the loop starts over -/
  | signal {st : ReactorState ρ P} {handed : ℕ} (hs : st.scanner = .scanning handed)
      (hscan : st.slots.scan = none) (hwoken : handed < st.slots.woken.length) :
      ReactorStep n st { st with scanner := .top }
  | scanned {st : ReactorState ρ P} {handed : ℕ} (hs : st.scanner = .scanning handed)
      (hscan : st.slots.scan = none) (hwoken : st.slots.woken.length ≤ handed) :
      ReactorStep n st { st with scanner := .checking }
  | idle {st : ReactorState ρ P} (hs : st.scanner = .checking)
      (hidle : st.slots.table.isIdle = true) : ReactorStep n st { st with scanner := .parking }
  /-- spin -/
  | busy {st : ReactorState ρ P} (hs : st.scanner = .checking)
      (hidle : st.slots.table.isIdle = false) : ReactorStep n st { st with scanner := .top }
  /-- the slow phase; the scanner probes the streams of the armed slots -/
  | probe {st : ReactorState ρ P} (hs : st.scanner = .checking)
      (hidle : st.slots.table.isIdle = false) (hscan : st.slots.scan = none) :
      ReactorStep n st
        { st with slots := { st.slots with scan := some (.start true) }, scanner := .probing }
  | probed {st : ReactorState ρ P} (hs : st.scanner = .probing) (hscan : st.slots.scan = none) :
      ReactorStep n st { st with scanner := .top }
  /-- `thread::park` takes a token that is there, and returns -/
  | takeToken {st : ReactorState ρ P} (hs : st.scanner = .parking ∨ st.scanner = .parked)
      (htoken : st.token = true) : ReactorStep n st { st with scanner := .top, token := false }
  | park {st : ReactorState ρ P} (hs : st.scanner = .parking) (htoken : st.token = false) :
      ReactorStep n st { st with scanner := .parked }
  /-- `thread::park` may return without a token -/
  | spurious {st : ReactorState ρ P} (hs : st.scanner = .parked) :
      ReactorStep n st { st with scanner := .top }

/-- The reactor over `n` slots. -/
def reactor (ρ P : Type) [DecidableEq ρ] (n : ℕ) : System (ReactorState ρ P) where
  Init st := ∃ flags, st = ⟨.initial n flags, .top, false, fun _ => false⟩
  Step := ReactorStep n

/-- A registration has armed the first slot, and has its `unpark` still to execute. -/
def ReactorState.MustUnpark (st : ReactorState ρ P) (r : ρ) : Prop :=
  (∃ s p, st.slots.regs r = .holding s (.counted p true)) ∨
    ∃ s p, st.slots.regs r = .published s p true ∧ st.unparked r = false

/-! ### Steps of the table -/

/-- What a step makes of a registration that it moves, with the answer of the idle test. -/
inductive Registrant.Moves (wasIdle : Bool) : Registrant P → Registrant P → Prop
  | claim (s : ℕ) : Moves wasIdle .idle (.holding s .claimed)
  | release (s : ℕ) (k : Stage P) (hk : k = .claimed ∨ k = .reset) :
      Moves wasIdle (.holding s k) (.released s)
  | reset (s : ℕ) : Moves wasIdle (.holding s .claimed) (.holding s .reset)
  | store (s : ℕ) (p : P) : Moves wasIdle (.holding s .reset) (.holding s (.stored p))
  | count (s : ℕ) (p : P) :
      Moves wasIdle (.holding s (.stored p)) (.holding s (.counted p wasIdle))
  | publish (s : ℕ) (p : P) (b : Bool) :
      Moves wasIdle (.holding s (.counted p b)) (.published s p b)

section Table

variable {n s : ℕ} {st st' : State ρ P} {r : ρ} {p : P} {b : Bool}

/-- An update of one registration by an allowed move is an allowed move of all. -/
theorem update_moves {regs : ρ → Registrant P} {r' : ρ} {x y : Registrant P} (hr : regs r' = y)
    (h : Registrant.Moves b y x) : Function.update regs r' x r = regs r ∨
      Registrant.Moves b (regs r) (Function.update regs r' x r) := by
  by_cases heq : r = r'
  · subst heq
    rw [Function.update_self, hr]
    exact .inr h
  · rw [Function.update_of_ne heq]
    exact .inl rfl

/-- A step leaves a registration where it is, or moves it on. -/
theorem Step.moves (h : Step n st st') (r : ρ) :
    st'.regs r = st.regs r ∨ Registrant.Moves st.table.isIdle (st.regs r) (st'.regs r) := by
  cases h with
  | claim hr ht => exact update_moves hr (.claim _)
  | release hr hk hw => exact update_moves hr (.release _ _ hk)
  | resetFlag hr => exact update_moves hr (.reset _)
  | storePayload p hr => exact update_moves hr (.store _ p)
  | countArmed hr => exact update_moves hr (.count _ _)
  | setActive hr => exact update_moves hr (.publish _ _ _)
  | scanTake hs hp =>
    left
    unfold State.handOut
    split
    · split
      · rfl
      · split <;> rfl
    · rfl
  | _ => exact .inl rfl

/-- A registration that has published stays as it is. -/
theorem Step.published (h : Step n st st') (hr : st.regs r = .published s p b) :
    st'.regs r = .published s p b := by
  rcases h.moves r with hsame | hmoves
  · rw [hsame, hr]
  · rw [hr] at hmoves
    cases hmoves

/-- A registration that is counted is published next. -/
theorem Step.counted (h : Step n st st') (hr : st.regs r = .holding s (.counted p b)) :
    st'.regs r = .holding s (.counted p b) ∨ st'.regs r = .published s p b := by
  rcases h.moves r with hsame | hmoves
  · exact .inl (hsame.trans hr)
  · rw [hr] at hmoves
    generalize st'.regs r = x at hmoves
    cases hmoves with
    | release hk => rcases ‹_ ∨ _› with hk | hk <;> cases hk
    | publish => exact .inr rfl

/-- Unless a scan is under way, the counter is moved by a registration that is counted. -/
theorem Step.nArmed (h : Step n st st') (hscan : st.scan = none) :
    st'.table.nArmed = st.table.nArmed ∨
      ∃ r s p, st'.regs r = .holding s (.counted p st.table.isIdle) := by
  cases h with
  | claim hr ht =>
    obtain ⟨rest, -, rfl⟩ := SlotTable.claim_eq_some.mp ht
    exact .inl rfl
  | @countArmed r s p hr =>
    refine .inr ⟨r, s, p, ?_⟩
    simp only [State.setReg, Function.update_self]
  | scanEnd hs hp => rw [hscan] at hs; cases hs
  | scanTake hs hp => rw [hscan] at hs; cases hs
  | _ => exact .inl rfl

end Table

/-! ### The invariant -/

/-- What holds in every state of every run. -/
structure Wakes (n : ℕ) (st : ReactorState ρ P) : Prop where
  slots : (protocol ρ P n).Reachable st.slots
  still : ¬st.scanner.Scans → st.slots.scan = none
  unparked : ∀ r, st.unparked r = true → ∃ s p, st.slots.regs r = .published s p true
  /-- since the idle check, the first registration to be counted is one that unparks -/
  pending : st.scanner.Sleeps → st.token = false → st.slots.table.nArmed ≠ 0 →
    ∃ r, st.MustUnpark r

namespace Wakes

variable {n : ℕ} {st st' : ReactorState ρ P} {slots : State ρ P}

/-- Nothing is registered at the start. -/
theorem initial (flags : ℕ → UInt32) :
    Wakes n (⟨.initial n flags, .top, false, fun _ => false⟩ : ReactorState ρ P) where
  slots := .init ⟨flags, rfl⟩
  still := by
    intro _
    rfl
  unparked := by
    intro r h
    cases h
  pending := by
    intro h
    cases h

/-- A step of the table keeps what is about to unpark. -/
theorem mustUnpark (h : Wakes n st) (hstep : Step n st.slots slots) {r : ρ}
    (hr : st.MustUnpark r) : ReactorState.MustUnpark { st with slots } r := by
  rcases hr with ⟨s, p, hr⟩ | ⟨s, p, hr, hfirst⟩
  · rcases hstep.counted hr with hcounted | hpublished
    · exact .inl ⟨s, p, hcounted⟩
    · refine .inr ⟨s, p, hpublished, ?_⟩
      -- it cannot have unparked before it was published
      by_contra hdone
      obtain ⟨s', p', hr'⟩ := h.unparked r (Bool.eq_true_of_not_eq_false hdone)
      rw [hr] at hr'
      cases hr'
  · exact .inr ⟨s, p, hstep.published hr, hfirst⟩

/-- A step of the table. -/
theorem tableStep (h : Wakes n st) (hstep : Step n st.slots slots)
    (hscan : ¬st.scanner.Scans → slots.scan = st.slots.scan) : Wakes n { st with slots } where
  slots := h.slots.step hstep
  still := by
    intro hs
    exact (hscan hs).trans (h.still hs)
  unparked := by
    intro r hr
    obtain ⟨s, p, hpub⟩ := h.unparked r hr
    exact ⟨s, p, hstep.published hpub⟩
  pending := by
    intro hsleeps htoken hcount
    have hstill : st.slots.scan = none := by
      apply h.still
      intro hscans
      generalize st.scanner = k at hsleeps hscans
      cases k <;> first | exact hsleeps | exact hscans
    by_cases hzero : st.slots.table.nArmed = 0
    · rcases hstep.nArmed hstill with hsame | ⟨r, s, p, hr⟩
      · exact absurd (hsame.trans hzero) hcount
      · have hidle : st.slots.table.isIdle = true := by rw [SlotTable.isIdle, hzero]; rfl
        rw [hidle] at hr
        exact ⟨r, .inl ⟨s, p, hr⟩⟩
    · obtain ⟨r, hr⟩ := h.pending hsleeps htoken hzero
      exact ⟨r, h.mustUnpark hstep hr⟩

/-- The scanner moves on without going to sleep. -/
theorem awake (h : Wakes n st) {k : Scanner} {t : Bool} (hk : ¬k.Sleeps)
    (hscan : st.slots.scan = none) : Wakes n { st with scanner := k, token := t } where
  slots := h.slots
  still := by
    intro _
    exact hscan
  unparked := h.unparked
  pending := by
    intro hsleeps
    exact absurd hsleeps hk

/-- Every step of the reactor keeps the invariant. -/
theorem step (h : Wakes n st) (hstep : ReactorStep n st st') : Wakes n st' := by
  cases hstep with
  -- the steps of the tables keep the token
  | others hstep hscan => exact h.tableStep hstep fun _ => hscan
  | scan hs hscan hstep => exact h.tableStep hstep fun hnot => absurd hs hnot
  | @unpark r s p hr hfirst =>
    refine ⟨h.slots, h.still, ?_, ?_⟩
    -- the owner that was unparked is `r`
    · intro r' hr'
      by_cases heq : r' = r
      · rw [heq]
        exact ⟨s, p, hr⟩
      · have hr' : Function.update st.unparked r true r' = true := hr'
        rw [Function.update_of_ne heq] at hr'
        exact h.unparked r' hr'
    · intro _ htoken
      cases htoken
  -- a scan that starts leaves the sleeping states
  | scanOnce hs hscan =>
    refine ⟨h.slots.step (.scanStart false hscan), ?_, h.unparked, ?_⟩
    · intro hnot
      exact absurd trivial hnot
    · intro hsleeps
      cases hsleeps
  | probe hs hidle hscan =>
    refine ⟨h.slots.step (.scanStart true hscan), ?_, h.unparked, ?_⟩
    · intro hnot
      exact absurd trivial hnot
    · intro hsleeps
      cases hsleeps
  -- the thread is awake: it has nothing to be woken for
  | signal hs hscan hwoken => exact h.awake id hscan
  | scanned hs hscan hwoken => exact h.awake id hscan
  | probed hs hscan => exact h.awake id hscan
  | busy hs hidle => exact h.awake id (h.still (by rw [hs]; exact id))
  | takeToken hs htoken =>
    refine h.awake id (h.still ?_)
    rcases hs with hs | hs <;> rw [hs] <;> exact id
  | spurious hs => exact h.awake id (h.still (by rw [hs]; exact id))
  -- before it sleeps the thread looks at the state again
  | idle hs hidle =>
    refine ⟨h.slots, fun _ => h.still (by rw [hs]; exact id), h.unparked, ?_⟩
    intro _ _ hcount
    exact absurd (beq_iff_eq.mp hidle) hcount
  | park hs htoken =>
    refine ⟨h.slots, fun _ => h.still (by rw [hs]; exact id), h.unparked, ?_⟩
    intro _ _ hcount
    exact h.pending (by rw [hs]; exact trivial) htoken hcount

/-- It holds in every reachable state. -/
theorem reachable (h : (reactor ρ P n).Reachable st) : Wakes n st := by
  refine h.invariant (fun s hs => ?_) fun s s' hs hstep => hs.step hstep
  obtain ⟨flags, rfl⟩ := hs
  exact initial flags

end Wakes

/-! ### No lost wake-up -/

omit [DecidableEq ρ] in
/-- An armed slot is counted. -/
theorem Tracks.nArmed_ne_zero {n : ℕ} {st : State ρ P} {φ : ℕ → Phase ρ P} (h : Tracks n st φ)
    {s : ℕ} (hs : st.table.active.Mem s) : st.table.nArmed ≠ 0 := by
  obtain ⟨r, p, hph⟩ := (h.owners.mem_active s).mp hs
  have hlt : s < n := h.lt (by rw [hph]; simp)
  have hle : (φ s).weight ≤ total n φ := by
    unfold total
    exact Finset.single_le_sum (fun t _ => Nat.zero_le ((φ t).weight)) (Finset.mem_range.mpr hlt)
  rw [hph] at hle
  rw [h.counter]
  have hone : (Phase.armed r p).weight = 1 := rfl
  omega

/-- **The scanner does not sleep through a registration.**  In every state of every run, where the
scanner is parked without a token while a slot is counted as armed or its active bit is set, some
registration has its `unpark` still to execute. -/
theorem scanner_never_sleeps {n : ℕ} (hn : n * 8 < 2 ^ 63) {st : ReactorState ρ P}
    (h : (reactor ρ P n).Reachable st) (hparked : st.scanner = .parked) (htoken : st.token = false)
    (harmed : st.slots.table.nArmed ≠ 0 ∨ ∃ s, st.slots.table.active.Mem s) :
    ∃ r, st.MustUnpark r := by
  have hwakes := Wakes.reachable h
  refine hwakes.pending (by rw [hparked]; exact trivial) htoken ?_
  rcases harmed with hcount | ⟨s, hs⟩
  · exact hcount
  · obtain ⟨φ, hφ⟩ := Tracks.reachable hn hwakes.slots
    exact hφ.nArmed_ne_zero hs

/-- The scanner has parked over an empty table, and a registration counts the only slot. -/
theorem scanner_never_sleeps_first : ∃ st : ReactorState Unit String, ∃ r, st.MustUnpark r := by
  have h0 : (reactor Unit String 1).Reachable ⟨.initial 1 fun _ => 0, .top, false,
    fun _ => false⟩ :=
    .init ⟨_, rfl⟩
  have h1 := h0.step (.scanOnce rfl rfl)
  have h2 := h1.step (.scan trivial (by simp) (.scanWord rfl rfl (by decide)))
  have h3 := h2.step (.scan trivial (by simp) (.scanWordEnd rfl rfl (.inl rfl)))
  have h4 := h3.step (.scan trivial (by simp) (.scanWordsEnd rfl rfl (by decide)))
  have h5 := h4.step (.scanned rfl rfl (by decide))
  have h6 := h5.step (.idle rfl rfl)
  have h7 := h6.step (.park rfl rfl)
  have h8 := h7.step (.others (.claim (r := ()) rfl rfl) rfl)
  have h9 := h8.step (.others (.resetFlag (r := ()) rfl) rfl)
  have h10 := h9.step (.others (.storePayload (r := ()) "waker" rfl) rfl)
  have h11 := h10.step (.others (.countArmed (r := ()) rfl) rfl)
  exact ⟨_, scanner_never_sleeps (by decide) h11 rfl rfl (.inl (by decide))⟩

end CudaOxide.Async
