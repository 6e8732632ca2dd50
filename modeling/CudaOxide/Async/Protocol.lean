import CudaOxide.Async.Ownership

namespace CudaOxide.Async

open Lib

/-!
# The slot protocol in every order of its steps

* `Scan.Sound` — what the scanner knows of the slot it works on; `HandedOut` — what holds of the
  payloads that scans have handed out.  Both survive the steps of all other threads (`Later`).
* `Tracks` — the invariant: an assignment of phases explains the whole state.  `Tracks.step` keeps
  it in every step.
* `slotTable_safe` — the guarantees of the table in every reachable state.
-/

variable {ρ P : Type}

/-! ### What the scanner knows -/

/-- The flag was seen set, or the payload was reported dead. -/
def Judged (device : ρ → FlagWrite) (reported : ρ → Bool) (landed : Bool) (writer : Option ρ)
    (r : ρ) : Prop :=
  (landed = true → device r = .done ∧ writer = some r) ∧ (landed = false → reported r = true)

/-- Facts about registrations that no later step undoes. -/
structure Later (device device' : ρ → FlagWrite) (reported reported' : ρ → Bool)
    (regs regs' : ρ → Registrant P) : Prop where
  done : ∀ r, device r = .done → device' r = .done
  reported : ∀ r, reported r = true → reported' r = true
  published : ∀ r s p b, regs r = .published s p b → regs' r = .published s p b

section Later

variable {device device' : ρ → FlagWrite} {reported reported' : ρ → Bool}
  {regs regs' : ρ → Registrant P} {r : ρ}

/-- A judgement stays true while devices and reports move on. -/
theorem Judged.mono (h : Later device device' reported reported' regs regs') {landed : Bool}
    {writer : Option ρ} (hj : Judged device reported landed writer r) :
    Judged device' reported' landed writer r :=
  ⟨fun hl => ⟨h.done r (hj.1 hl).1, (hj.1 hl).2⟩, fun hl => h.reported r (hj.2 hl)⟩

/-- Nothing has moved. -/
theorem Later.refl : Later device device reported reported regs regs :=
  ⟨fun _ => id, fun _ => id, fun _ _ _ _ => id⟩

variable [DecidableEq ρ]

/-- A registration that was not published may change. -/
theorem Later.reg {x : Registrant P} (hr : ∀ s p b, regs r ≠ .published s p b) :
    Later device device reported reported regs (Function.update regs r x) := by
  refine ⟨fun _ => id, fun _ => id, fun r' s p b h => ?_⟩
  have hne : r' ≠ r := by
    rintro rfl
    exact hr s p b h
  rwa [Function.update_of_ne hne]

/-- A device's write may move on, but a write that is done stays done. -/
theorem Later.setDevice {x : FlagWrite} (hx : device r ≠ .done ∨ x = .done) :
    Later device (Function.update device r x) reported reported regs regs := by
  refine ⟨fun r' h => ?_, fun _ => id, fun _ _ _ _ => id⟩
  by_cases hr : r' = r
  · subst hr
    rw [Function.update_self]
    exact hx.resolve_left fun hne => hne h
  · rwa [Function.update_of_ne hr]

/-- A report is added. -/
theorem Later.report (r : ρ) :
    Later device device reported (Function.update reported r true) regs regs := by
  refine ⟨fun _ => id, fun r' h => ?_, fun _ _ _ _ => id⟩
  by_cases hr : r' = r
  · rw [hr, Function.update_self]
  · rwa [Function.update_of_ne hr]

end Later

/-- The scanner is at work on a slot of the current word. -/
def ScanPoint.inWord : ScanPoint ρ → Bool
  | .nextBit => true
  | .probe _ => true
  | .clear _ _ _ => true
  | .take _ _ _ => true
  | _ => false

/-- The slot that the scanner looks at. -/
def ScanPoint.slot : ScanPoint ρ → Option ℕ
  | .probe s => some s
  | .clear s _ _ => some s
  | .take s _ _ => some s
  | _ => none

/-- The slots that are out of the active bits and not yet free. -/
def Scan.retiring (sc : Scan ρ) : List ℕ :=
  match sc.point with
  | .take s _ _ => sc.retired ++ [s]
  | _ => sc.retired

/-- The slots that the scan has taken off and not yet recycled. -/
def State.retiring (st : State ρ P) : List ℕ :=
  match st.scan with
  | some sc => sc.retiring
  | none => []

/-- Slots that are free again and still counted. -/
def State.uncounted (st : State ρ P) : ℕ :=
  match st.scan with
  | some sc =>
    match sc.point with
    | .subtract n => n
    | _ => 0
  | none => 0

/-- The payloads that were handed out. -/
def handed (woken : List (Delivery ρ P)) (dead : List (Payload ρ P)) : List (Payload ρ P) :=
  woken.map (fun d => d.payload) ++ dead

/-- What the scanner knows of the slot at the point it stands. -/
def ScanPoint.Knows (retired : List ℕ) (payload : ℕ → Option (Payload ρ P))
    (device : ρ → FlagWrite) (reported : ρ → Bool) (regs : ρ → Registrant P)
    (φ : ℕ → Phase ρ P) (out : List (Payload ρ P)) : ScanPoint ρ → Prop
  | .probe s => ∃ r p, φ s = .armed r p
  | .clear s landed writer => ∃ r p, φ s = .armed r p ∧ Judged device reported landed writer r
  | .take s landed writer => φ s = .retiring ∧ ∃ p b, payload s = some p ∧
      Judged device reported landed writer p.owner ∧ regs p.owner = .published s p.value b ∧
        ∀ q ∈ out, q.owner ≠ p.owner
  | .subtract _ => retired = []
  | _ => True

/-- The bits that are left belong to armed slots, other than the one that is looked at. -/
structure Scan.Sound (sc : Scan ρ) (payload : ℕ → Option (Payload ρ P)) (device : ρ → FlagWrite)
    (reported : ρ → Bool) (regs : ρ → Registrant P) (φ : ℕ → Phase ρ P)
    (out : List (Payload ρ P)) : Prop where
  bits : sc.point.inWord = true → ∀ i, sc.bits.getLsbD i = true →
    (∃ r p, φ (sc.word * 64 + i) = .armed r p) ∧ sc.point.slot ≠ some (sc.word * 64 + i)
  knows : sc.point.Knows sc.retired payload device reported regs φ out

/-- Each payload is handed out once, when its own flag write is done or it was reported dead. -/
structure HandedOut (woken : List (Delivery ρ P)) (dead : List (Payload ρ P))
    (device : ρ → FlagWrite) (reported : ρ → Bool) (regs : ρ → Registrant P)
    (φ : ℕ → Phase ρ P) : Prop where
  nodup : ((handed woken dead).map fun p => p.owner).Nodup
  published : ∀ p ∈ handed woken dead, ∃ s b, regs p.owner = .published s p.value b
  gone : ∀ s r p, φ s = .armed r p → ∀ q ∈ handed woken dead, q.owner ≠ r
  woken : ∀ d ∈ woken, device d.payload.owner = .done ∧ d.writer = some d.payload.owner
  dead : ∀ p ∈ dead, reported p.owner = true

section Frames

variable {payload payload' : ℕ → Option (Payload ρ P)} {device device' : ρ → FlagWrite}
  {reported reported' : ρ → Bool} {regs regs' : ρ → Registrant P} {φ φ' : ℕ → Phase ρ P}
  {woken : List (Delivery ρ P)} {dead out : List (Payload ρ P)} {sc : Scan ρ}

/-- The other threads do not touch armed and retiring slots. -/
theorem Scan.Sound.frame (h : sc.Sound payload device reported regs φ out)
    (hlater : Later device device' reported reported' regs regs')
    (harmed : ∀ s r p, φ s = .armed r p → φ' s = .armed r p)
    (hret : ∀ s, φ s = .retiring → φ' s = .retiring ∧ payload' s = payload s) :
    sc.Sound payload' device' reported' regs' φ' out := by
  refine ⟨fun hin i hi => ?_, ?_⟩
  · obtain ⟨⟨r, p, hph⟩, hne⟩ := h.bits hin i hi
    exact ⟨⟨r, p, harmed _ _ _ hph⟩, hne⟩
  · have hknows := h.knows
    cases hp : sc.point with
    | probe s =>
      rw [hp] at hknows
      obtain ⟨r, p, hph⟩ := hknows
      exact ⟨r, p, harmed _ _ _ hph⟩
    | clear s landed writer =>
      rw [hp] at hknows
      obtain ⟨r, p, hph, hj⟩ := hknows
      exact ⟨r, p, harmed _ _ _ hph, hj.mono hlater⟩
    | take s landed writer =>
      rw [hp] at hknows
      obtain ⟨hph, p, b, hcell, hj, hpub, hout⟩ := hknows
      obtain ⟨hph', hsame⟩ := hret s hph
      exact ⟨hph', p, b, hsame.trans hcell, hj.mono hlater, hlater.published _ _ _ _ hpub, hout⟩
    | subtract n =>
      rw [hp] at hknows
      exact hknows
    | nextWord => trivial
    | nextBit => trivial
    | recycle => trivial

/-- Only a registration that has not been published yet may become armed. -/
theorem HandedOut.frame (h : HandedOut woken dead device reported regs φ)
    (hlater : Later device device' reported reported' regs regs')
    (harmed : ∀ s r p, φ' s = .armed r p → φ s = .armed r p ∨ ∀ t q b, regs r ≠ .published t q b) :
    HandedOut woken dead device' reported' regs' φ' where
  nodup := h.nodup
  published p hp := by
    obtain ⟨s, b, hpub⟩ := h.published p hp
    exact ⟨s, b, hlater.published _ _ _ _ hpub⟩
  gone s r p hph q hq := by
    rcases harmed s r p hph with hold | hnew
    · exact h.gone s r p hold q hq
    · rintro rfl
      obtain ⟨t, b, hpub⟩ := h.published q hq
      exact hnew _ _ _ hpub
  woken d hd := ⟨hlater.done _ (h.woken d hd).1, (h.woken d hd).2⟩
  dead p hp := hlater.reported _ (h.dead p hp)

/-- The payload of a retiring slot is one more that is handed out. -/
theorem HandedOut.concat (h : HandedOut woken dead device reported regs φ)
    {s : ℕ} {p : Payload ρ P} {b landed : Bool} {writer : Option ρ}
    (hjudged : Judged device reported landed writer p.owner)
    (hpub : regs p.owner = .published s p.value b) (hs : φ s = .retiring)
    (hpublished : ∀ t r q, φ t = .armed r q → ∃ b, regs r = .published t q b)
    (hnew : ∀ q ∈ handed woken dead, q.owner ≠ p.owner) :
    (landed = true → HandedOut (woken ++ [⟨p, writer⟩]) dead device reported regs φ) ∧
      (landed = false → HandedOut woken (dead ++ [p]) device reported regs φ) := by
  -- `p` was published, and an armed owner has published its own payload only
  have hgone : ∀ t r q, φ t = .armed r q → p.owner ≠ r := by
    rintro t r q ht rfl
    obtain ⟨c, hc⟩ := hpublished t _ q ht
    rw [hpub] at hc
    cases hc
    rw [hs] at ht
    cases ht
  -- who was handed out is who was before, and `p`
  have hmem : ∀ q, q ∈ handed (woken ++ [⟨p, writer⟩]) dead ∨
      q ∈ handed woken (dead ++ [p]) →
      q ∈ handed woken dead ∨ q = p := by
    intro q
    simp only [handed, List.map_append, List.map_cons, List.map_nil,
      List.mem_append, List.mem_singleton]
    tauto
  have hnodup : (p.owner :: (handed woken dead).map fun q => q.owner).Nodup := by
    refine List.nodup_cons.mpr ⟨fun hin => ?_, h.nodup⟩
    obtain ⟨q, hq, hqp⟩ := List.mem_map.mp hin
    exact hnew q hq hqp
  constructor
  · intro hl
    -- the owner woke up: `p` goes to the woken
    refine ⟨?_, fun q hq => ?_, fun t r x ht q hq => ?_, fun d hd => ?_, h.dead⟩
    · refine (List.Perm.nodup_iff ?_).mp hnodup
      simp only [handed, List.map_append, List.map_cons, List.map_nil,
        List.append_assoc, List.singleton_append]
      exact List.perm_middle.symm
    · rcases hmem q (.inl hq) with hold | rfl
      · exact h.published q hold
      · exact ⟨s, b, hpub⟩
    · rcases hmem q (.inl hq) with hold | rfl
      · exact h.gone t r x ht q hold
      · exact hgone t r x ht
    · rcases List.mem_append.mp hd with hold | hnew
      · exact h.woken d hold
      · rw [List.mem_singleton.mp hnew]
        exact hjudged.1 hl
  · intro hl
    -- the owner was dropped: `p` goes to the dead
    refine ⟨?_, fun q hq => ?_, fun t r x ht q hq => ?_, h.woken, fun q hq => ?_⟩
    · refine (List.Perm.nodup_iff ?_).mp hnodup
      simp only [handed, List.map_append, List.map_cons, List.map_nil,
        ← List.append_assoc]
      exact (List.perm_append_singleton _ _).symm
    · rcases hmem q (.inr hq) with hold | rfl
      · exact h.published q hold
      · exact ⟨s, b, hpub⟩
    · rcases hmem q (.inr hq) with hold | rfl
      · exact h.gone t r x ht q hold
      · exact hgone t r x ht
    · rcases List.mem_append.mp hq with hold | hnew
      · exact h.dead q hold
      · rw [List.mem_singleton.mp hnew]
        exact hjudged.2 hl

end Frames

/-! ### The invariant -/

/-- The phases explain the state. -/
structure Tracks (n : ℕ) (st : State ρ P) (φ : ℕ → Phase ρ P) : Prop where
  owners : Owners n st.table.free st.table.active st.regs st.retiring φ
  cells : Cells st.table.payload φ
  flags : Flags st.table.flags st.table.lastWrite st.device st.reported st.regs φ
  scan : ∀ sc, st.scan = some sc → sc.Sound st.table.payload st.device st.reported st.regs φ
    (handed st.woken st.dead)
  handed : HandedOut st.woken st.dead st.device st.reported st.regs φ
  counter : st.table.nArmed = total n φ + st.uncounted
  uncounted_le : st.uncounted ≤ n

namespace Tracks

variable {n : ℕ} {st : State ρ P} {φ : ℕ → Phase ρ P} {s : ℕ} {r : ρ}

/-- A slot that is present is one of the table's. -/
theorem lt (h : Tracks n st φ) (hs : φ s ≠ .absent) : s < n := by
  by_contra hn
  exact hs ((h.owners.absent s).mpr (not_lt.mp hn))

/-- The phases of a fresh table: all slots are free. -/
theorem initial [DecidableEq ρ] (n : ℕ) (flags : ℕ → UInt32) :
    Tracks n (State.initial n flags : State ρ P) fun s => if s < n then .free else .absent where
  owners := by
    refine ⟨fun s => ?_, fun s => ?_, ?_, fun r s k => ?_, fun s => ?_, fun s r p h => ?_,
      fun s => ?_, List.nodup_nil⟩
    -- every slot below `n` starts free, and no other one exists
    · by_cases hs : s < n
      · simp [hs]
      · simpa [hs] using not_lt.mp hs
    · by_cases hs : s < n
      · simp [State.initial, SlotTable.new, hs]
      · simp [State.initial, SlotTable.new, hs]
    · exact List.nodup_reverse.mpr List.nodup_range
    · by_cases hs : s < n
      · simp [State.initial, hs]
      · simp [State.initial, hs]
    · by_cases hs : s < n
      · simp [State.initial, SlotTable.new, Bitmap.Mem, hs]
      · simp [State.initial, SlotTable.new, Bitmap.Mem, hs]
    · by_cases hs : s < n
      · simp [hs] at h
      · simp [hs] at h
    · by_cases hs : s < n
      · simp [State.initial, State.retiring, hs]
      · simp [State.initial, State.retiring, hs]
  cells s p h := by
    by_cases hs : s < n
    · simp [hs, Phase.cell] at h
    · simp [hs, Phase.cell] at h
  flags := by
    refine ⟨fun s r h => ?_, fun r s h => ?_, fun r s p b h => ?_⟩
    · by_cases hs : s < n
      · simp [hs, Phase.Awaits] at h
      · simp [hs, Phase.Awaits] at h
    · cases h
    · cases h
  scan sc h := by cases h
  handed := by
    refine ⟨List.nodup_nil, fun p h => ?_, fun s r p _ q h => ?_, fun d h => ?_, fun p h => ?_⟩
    all_goals exact absurd h List.not_mem_nil
  counter := by
    have hzero : ∀ s, (if s < n then Phase.free else Phase.absent : Phase ρ P).weight = 0 := by
      intro s
      split
      · rfl
      · rfl
    show 0 = total n _ + 0
    rw [total, Finset.sum_eq_zero fun s _ => hzero s]
  uncounted_le := Nat.zero_le n

/-- A step of a registrant: one slot, neither armed nor retiring, changes its phase. -/
theorem change (h : Tracks n st φ) {st' : State ρ P} {new : Phase ρ P} (hs : s < n)
    (hscan : st'.scan = st.scan)
    (hwoken : st'.woken = st.woken) (hdead : st'.dead = st.dead)
    (howners : Owners n st'.table.free st'.table.active st'.regs st.retiring
      (Function.update φ s new))
    (hcells : Cells st'.table.payload (Function.update φ s new))
    (hflags : Flags st'.table.flags st'.table.lastWrite st'.device st'.reported st'.regs
      (Function.update φ s new))
    (hlater : Later st.device st'.device st.reported st'.reported st.regs st'.regs)
    (harmed : ∀ r p, φ s ≠ .armed r p) (hret : φ s ≠ .retiring)
    (hpayload : ∀ t, t ≠ s → st'.table.payload t = st.table.payload t)
    (hnew : ∀ r p, new = .armed r p → ∀ t q b, st.regs r ≠ .published t q b)
    (hcount : st'.table.nArmed + (φ s).weight = st.table.nArmed + new.weight) :
    Tracks n st' (Function.update φ s new) where
  owners := by rwa [State.retiring, hscan]
  cells := hcells
  flags := hflags
  scan sc hsc := by
    rw [hwoken, hdead]
    -- the slots that the scan still has to visit are not `s`
    refine (h.scan sc (hscan ▸ hsc)).frame hlater (fun t r p ht => ?_) fun t ht => ?_
    · have hne : t ≠ s := by
        rintro rfl
        exact harmed r p ht
      rw [Function.update_of_ne hne, ht]
    · have hne : t ≠ s := by
        rintro rfl
        exact hret ht
      rw [Function.update_of_ne hne]
      exact ⟨ht, hpayload t hne⟩
  handed := by
    rw [hwoken, hdead]
    refine h.handed.frame hlater fun t r p ht => ?_
    -- the payload of a changed slot is no longer armed
    by_cases hts : t = s
    · subst hts
      rw [Function.update_self] at ht
      exact .inr (hnew r p ht)
    · rw [Function.update_of_ne hts] at ht
      exact .inl ht
  counter := by
    have hsum := total_update hs φ new
    -- the counter moves with the weight of the slot
    have hold := h.counter
    have hun : st'.uncounted = st.uncounted := by rw [State.uncounted, hscan, State.uncounted]
    rw [hun]
    omega
  uncounted_le := by
    have hun : st'.uncounted = st.uncounted := by rw [State.uncounted, hscan, State.uncounted]
    rw [hun]
    exact h.uncounted_le

/-! ### The steps of the scanner -/

/-- The scanner moves on without touching the table. -/
theorem scanMove (h : Tracks n st φ) {scan' : Option (Scan ρ)}
    (hret : ({ st with scan := scan' } : State ρ P).retiring = st.retiring)
    (hun : ({ st with scan := scan' } : State ρ P).uncounted = st.uncounted)
    (hsound : ∀ sc, scan' = some sc → sc.Sound st.table.payload st.device st.reported st.regs φ
      (CudaOxide.Async.handed st.woken st.dead)) :
    Tracks n { st with scan := scan' } φ where
  owners := by
    rw [hret]
    exact h.owners
  cells := h.cells
  flags := h.flags
  scan := hsound
  handed := h.handed
  counter := by
    rw [hun]
    exact h.counter
  uncounted_le := by
    rw [hun]
    exact h.uncounted_le

variable {sc : Scan ρ} {landed : Bool} {writer : Option ρ}

/-- A scan starts: nothing is taken off yet. -/
theorem scanStart (h : Tracks n st φ) (probing : Bool) (hs : st.scan = none) :
    Tracks n { st with scan := some (.start probing) } φ := by
  refine h.scanMove ?_ ?_ fun sc hsc => ?_
  · simp [State.retiring, Scan.retiring, Scan.start, hs]
  · simp [State.uncounted, Scan.start, hs]
  · cases hsc
    exact ⟨fun hin => absurd hin Bool.false_ne_true, trivial⟩

/-- The scan reads the next word of the bitmap. -/
theorem scanWord (h : Tracks n st φ) (hs : st.scan = some sc) (hp : sc.point = .nextWord) :
    Tracks n { st with scan := some { sc with
      bits := st.table.active sc.word
      anyActive := sc.anyActive || st.table.active sc.word != 0
      point := .nextBit } } φ := by
  refine h.scanMove ?_ ?_ fun sc' hsc => ?_
  · simp [State.retiring, Scan.retiring, hs, hp]
  · simp [State.uncounted, hs, hp]
  · cases hsc
    refine ⟨fun _ i hi => ⟨?_, by simp [ScanPoint.slot]⟩, trivial⟩
    -- a bit of the loaded word is the active bit of its slot
    have hlt : i < 64 := BitVec.lt_of_getLsbD hi
    rw [← h.owners.mem_active]
    show (st.table.active ((sc.word * 64 + i) / 64)).getLsbD ((sc.word * 64 + i) % 64) = true
    rw [show (sc.word * 64 + i) / 64 = sc.word by omega,
      show (sc.word * 64 + i) % 64 = i by omega]
    exact hi

/-- The word has no bits left. -/
theorem scanWordEnd (h : Tracks n st φ) (hs : st.scan = some sc) (hp : sc.point = .nextBit) :
    Tracks n { st with scan := some { sc with word := sc.word + 1, point := .nextWord } } φ := by
  refine h.scanMove ?_ ?_ fun sc' hsc => ?_
  · simp [State.retiring, Scan.retiring, hs, hp]
  · simp [State.uncounted, hs, hp]
  · cases hsc
    exact ⟨fun hin => absurd hin Bool.false_ne_true, trivial⟩

/-- The lowest bit is taken out of the word, and its slot is looked at. -/
theorem scanFlag (h : Tracks n st φ) (hs : st.scan = some sc) (hp : sc.point = .nextBit)
    (hbits : sc.bits ≠ 0) (hslot : s = sc.word * 64 + Bitmap.lowest sc.bits) :
    Tracks n { st with scan := some { sc with
      bits := Bitmap.dropLowest sc.bits
      point := if st.table.flags s = 1 then .clear s true (st.table.lastWrite s)
        else if sc.probing then .probe s else .nextBit } } φ := by
  have hsound := h.scan sc hs
  have hin : sc.point.inWord = true := by rw [hp]; rfl
  obtain ⟨⟨r, p, harmed⟩, _⟩ := hsound.bits hin _ (Bitmap.getLsbD_lowest hbits)
  rw [← hslot] at harmed
  have hrest : ∀ i, (Bitmap.dropLowest sc.bits).getLsbD i = true →
      (∃ r p, φ (sc.word * 64 + i) = .armed r p) ∧ s ≠ sc.word * 64 + i := by
    intro i hi
    obtain ⟨hi, hne⟩ := Bitmap.getLsbD_dropLowest hbits hi
    refine ⟨(hsound.bits hin i hi).1, ?_⟩
    rw [hslot]
    omega
  refine h.scanMove ?_ ?_ fun sc' hsc => ?_
  · split_ifs
    all_goals simp [State.retiring, Scan.retiring, hs, hp]
  · split_ifs
    all_goals simp [State.uncounted, hs, hp]
  · cases hsc
    by_cases hset : st.table.flags s = 1
    · -- the flag was set by the owner of the slot
      rw [if_pos hset]
      obtain ⟨hlast, hdone⟩ := h.flags.own s r (by rw [harmed]; rfl) hset
      exact ⟨fun _ i hi => ⟨(hrest i hi).1, fun heq => (hrest i hi).2 (Option.some.inj heq)⟩,
        r, p, harmed, fun _ => ⟨hdone, hlast⟩, by simp⟩
    · rw [if_neg hset]
      cases sc.probing with
      | true =>
        exact ⟨fun _ i hi => ⟨(hrest i hi).1, fun heq => (hrest i hi).2 (Option.some.inj heq)⟩,
          r, p, harmed⟩
      | false => exact ⟨fun _ i hi => ⟨(hrest i hi).1, by simp [ScanPoint.slot]⟩, trivial⟩

/-- The probed slot is still pending, and the scan goes on. -/
theorem scanAlive (h : Tracks n st φ) (hs : st.scan = some sc) (hp : sc.point = .probe s) :
    Tracks n { st with scan := some { sc with point := .nextBit } } φ := by
  refine h.scanMove ?_ ?_ fun sc' hsc => ?_
  · simp [State.retiring, Scan.retiring, hs, hp]
  · simp [State.uncounted, hs, hp]
  · cases hsc
    refine ⟨fun _ i hi => ⟨?_, by simp [ScanPoint.slot]⟩, trivial⟩
    exact ((h.scan sc hs).bits (by rw [hp]; rfl) i hi).1

/-- The scan has seen every word. -/
theorem scanWordsEnd (h : Tracks n st φ) (hs : st.scan = some sc) (hp : sc.point = .nextWord) :
    Tracks n { st with scan :=
      if sc.retired = [] then none else some { sc with point := .recycle } } φ := by
  by_cases hnil : sc.retired = []
  · rw [if_pos hnil]
    refine h.scanMove ?_ ?_ fun sc' hsc => ?_
    · simp [State.retiring, Scan.retiring, hs, hp, hnil]
    · simp [State.uncounted, hs, hp]
    · cases hsc
  · rw [if_neg hnil]
    refine h.scanMove ?_ ?_ fun sc' hsc => ?_
    · simp [State.retiring, Scan.retiring, hs, hp]
    · simp [State.uncounted, hs, hp]
    · cases hsc
      exact ⟨fun hin => absurd hin Bool.false_ne_true, trivial⟩

/-- The active bit is cleared: the slot leaves its owner. -/
theorem scanClear (h : Tracks n st φ) (hs : st.scan = some sc)
    (hp : sc.point = .clear s landed writer) :
    Tracks n { st with
      table := st.table.clearActive s
      scan := some { sc with point := .take s landed writer } }
        (Function.update φ s .retiring) := by
  have hsound := h.scan sc hs
  have hknows := hsound.knows
  rw [hp] at hknows
  obtain ⟨r, p, harmed, hjudged⟩ := hknows
  obtain ⟨b, hpub⟩ := h.owners.published s r p harmed
  have hret : st.retiring = sc.retired := by simp [State.retiring, Scan.retiring, hs, hp]
  have howners := h.owners.clearActive harmed
  rw [hret] at howners
  -- the slot goes from armed to retiring, and everything else stays
  refine ⟨howners, h.cells.update_phase (by simp [Phase.cell]),
    h.flags.update_phase (by simp [Phase.Awaits]) (fun r' haw hq halive => ?_)
      (fun r' t q c ht => ?_), fun sc' hsc => ?_,
    h.handed.frame Later.refl fun t r' q ht => .inl ?_, ?_, ?_⟩
  · -- a flag write that is on its way belongs to a payload that is alive
    rw [harmed] at haw
    have hr : r = r' := haw
    subst hr
    cases landed with
    | true =>
      rw [(hjudged.1 rfl).1] at hq
      cases hq
    | false =>
      rw [hjudged.2 rfl] at halive
      cases halive
  · rcases h.flags.retired r' t q c ht with hph | hdone
    -- the owner of `s` was taken, with the outcome that the scan has seen
    · by_cases hts : t = s
      · rw [hts, harmed] at hph
        cases hph
        refine .inr (.inr ?_)
        cases landed with
        | true => exact .inl (hjudged.1 rfl).1
        | false => exact .inr (hjudged.2 rfl)
      · exact .inr (.inl ⟨hts, hph⟩)
    · exact .inr (.inr hdone)
  · cases hsc
    -- the scan reads on in the same word, where bit `s` is gone
    refine ⟨fun _ i hi => ?_, Function.update_self .., ⟨r, p⟩, b,
      h.cells s ⟨r, p⟩ (by rw [harmed]; rfl), hjudged, hpub, h.handed.gone s r p harmed⟩
    obtain ⟨⟨r', q, hph⟩, hne⟩ := hsound.bits (by rw [hp]; rfl) i hi
    rw [hp] at hne
    have hts : sc.word * 64 + i ≠ s := fun heq => hne (congrArg some heq.symm)
    exact ⟨⟨r', q, by rw [Function.update_of_ne hts, hph]⟩, hne⟩
  · by_cases hts : t = s
    · rw [hts, Function.update_self] at ht
      cases ht
    · rwa [Function.update_of_ne hts] at ht
  · have hun : st.uncounted = 0 := by simp [State.uncounted, hs, hp]
    -- what the counter loses is the weight that the scan now owes
    have hsum := total_update (h.lt (s := s) (by simp [harmed])) φ Phase.retiring
    have hcount := h.counter
    rw [harmed] at hsum
    simp only [Phase.weight] at hsum
    show st.table.nArmed = total n _ + 0
    omega
  · exact Nat.zero_le n

/-- Whatever is done with the payload, the slot is retired. -/
theorem scanTake (h : Tracks n st φ) (hs : st.scan = some sc)
    (hp : sc.point = .take s landed writer) :
    Tracks n (({ st with
      table := st.table.takePayload s
      scan := some { sc with retired := sc.retired ++ [s], point := .nextBit } } :
        State ρ P).handOut
        sc landed writer (st.table.payload s)) φ := by
  have hsound := h.scan sc hs
  have hknows := hsound.knows
  rw [hp] at hknows
  obtain ⟨hph, p, b, hcell, hjudged, hpub, hnew⟩ := hknows
  have hret : st.retiring = sc.retired ++ [s] := by simp [State.retiring, Scan.retiring, hs, hp]
  have hun : st.uncounted = 0 := by simp [State.uncounted, hs, hp]
  have howners := h.owners
  rw [hret] at howners
  -- the payload is empty from now on
  have hcells : Cells (Function.update st.table.payload s none) φ := by
    have hupd := h.cells.update (s := s) (c := none) (φ s) (by simp [hph, Phase.cell])
    rwa [Function.update_eq_self] at hupd
  have hcount := h.counter
  rw [hun] at hcount
  have hbits : ∀ out, ({ sc with retired := sc.retired ++ [s], point := .nextBit } : Scan ρ).Sound
      (Function.update st.table.payload s none) st.device st.reported st.regs φ out := by
    -- the retired slots have grown by `s`
    refine fun out => ⟨fun _ i hi => ⟨?_, by simp [ScanPoint.slot]⟩, trivial⟩
    exact (hsound.bits (by rw [hp]; rfl) i hi).1
  obtain ⟨hwoken, hdead⟩ := h.handed.concat hjudged hpub hph
    (fun t r q => h.owners.published t r q) hnew
  rw [hcell]
  cases landed with
  -- where `p` goes depends on what the scan saw, and on whether it only probes
  | true =>
    exact ⟨howners, hcells, h.flags, fun sc' hsc => by cases hsc; exact hbits _, hwoken rfl, hcount,
      Nat.zero_le n⟩
  | false =>
    cases hprobing : sc.probing with
    | true =>
      rw [State.handOut, if_neg Bool.false_ne_true, if_pos hprobing]
      exact ⟨howners, hcells, h.flags, fun sc' hsc => by cases hsc; exact hprobing ▸ hbits _,
        hdead rfl, hcount, Nat.zero_le n⟩
    | false =>
      rw [State.handOut, if_neg Bool.false_ne_true, if_neg (by simp [hprobing])]
      exact ⟨howners, hcells, h.flags, fun sc' hsc => by cases hsc; exact hprobing ▸ hbits _,
        h.handed, hcount, Nat.zero_le n⟩

/-- The slots that were taken off are free again. -/
theorem scanRecycle (h : Tracks n st φ) (hs : st.scan = some sc) (hp : sc.point = .recycle) :
    Tracks n { st with
      table := st.table.recycle sc.retired
      scan := some { sc with retired := [], point := .subtract sc.retired.length } }
      (recycled sc.retired φ) := by
  have hret : st.retiring = sc.retired := by simp [State.retiring, Scan.retiring, hs, hp]
  have hun : st.uncounted = 0 := by simp [State.uncounted, hs, hp]
  have howners := h.owners
  rw [hret] at howners
  -- recycling changes retiring slots to free ones and nothing else
  have heq : ∀ t (x : Phase ρ P), x ≠ .free → x ≠ .retiring →
    (recycled sc.retired φ t = x ↔ φ t = x) :=
    fun t x => howners.recycled_eq
  have hlen : sc.retired.length ≤ n := by
    have hsum := howners.total_recycled
    have hle := total_le n φ
    omega
  have hcount := h.counter
  rw [hun] at hcount
  refine ⟨howners.recycle, fun t p ht => ?_, ⟨fun t r ht => ?_, fun r t ht halive => ?_,
    fun r t p b ht => ?_⟩, fun sc' hsc => ?_,
      h.handed.frame .refl fun t r p ht => .inl ?_, ?_, hlen⟩
  · refine h.cells t p ?_
    -- a retired slot is free now, every other one is as before
    by_cases hmem : t ∈ sc.retired
    · rw [recycled, if_pos hmem] at ht
      cases ht
    · rwa [recycled, if_neg hmem] at ht
  · refine h.flags.own t r ?_
    by_cases hmem : t ∈ sc.retired
    · rw [recycled, if_pos hmem] at ht
      exact absurd ht id
    · rwa [recycled, if_neg hmem] at ht
  · have haw := h.flags.queued r t ht halive
    by_cases hmem : t ∈ sc.retired
    · rw [(howners.mem_retiring t).mp hmem] at haw
      exact absurd haw id
    · rwa [recycled, if_neg hmem]
  · rw [heq t _ (by simp) (by simp)]
    exact h.flags.retired r t p b ht
  · cases hsc
    exact ⟨fun hin => absurd hin Bool.false_ne_true, rfl⟩
  · exact (heq t _ (by simp) (by simp)).mp ht
  · show st.table.nArmed = total n _ + sc.retired.length
    rw [hcount, howners.total_recycled, add_zero]

/-- The scan ends and uncounts what it recycled. -/
theorem scanEnd (h : Tracks n st φ) {k : ℕ} (hs : st.scan = some sc)
    (hp : sc.point = .subtract k) :
    Tracks n { st with table := st.table.uncountArmed k, scan := none } φ := by
  have hknows := (h.scan sc hs).knows
  rw [hp] at hknows
  have hnil : sc.retired = [] := hknows
  have hret : st.retiring = [] := by simp [State.retiring, Scan.retiring, hs, hp, hnil]
  have hun : st.uncounted = k := by simp [State.uncounted, hs, hp]
  have howners := h.owners
  rw [hret] at howners
  have hcount := h.counter
  rw [hun] at hcount
  have hexact : fetchSub st.table.nArmed k = total n φ := by
    rw [fetchSub, if_pos (by omega), hcount, Nat.add_sub_cancel]
  exact ⟨howners, h.cells, h.flags, fun sc' hsc => absurd hsc (by simp), h.handed, hexact,
    Nat.zero_le n⟩

/-! ### The steps of the registrants and of the device -/

variable [DecidableEq ρ]

/-- A registration claims a slot. -/
theorem claim (h : Tracks n st φ) {t : SlotTable ρ P} (hr : st.regs r = .idle)
    (ht : st.table.claim = some (s, t)) :
    Tracks n ({ st with table := t }.setReg r (.holding s .claimed))
      (Function.update φ s (.held r .claimed)) := by
  obtain ⟨rest, hfree, rfl⟩ := SlotTable.claim_eq_some.mp ht
  have howners := h.owners
  rw [hfree] at howners
  obtain ⟨hs, howners⟩ := howners.claim hr
  have hidle : ∀ t p b, st.regs r ≠ .published t p b := by simp [hr]
  refine h.change (h.lt (by simp [hs])) rfl rfl rfl howners
    (h.cells.update_phase (by simp [Phase.cell]))
    (h.flags.update_phase (by simp [Phase.Awaits]) (by simp [hs, Phase.Awaits])
      (h.flags.retired_update (by simp) (by simp [hs])))
    (Later.reg hidle) (by simp [hs]) (by simp [hs]) (fun _ _ => rfl) (by simp)
    (by simp [hs, Phase.weight, State.setReg])

/-- A registration gives a slot back before the device could write to it. -/
theorem release (h : Tracks n st φ) {k : Stage P} (hr : st.regs r = .holding s k)
    (hk : k = .claimed ∨ k = .reset) (hw : st.device r = .none) :
    Tracks n ({ st with table := st.table.release s }.setReg r (.released s))
      (Function.update φ s .free) := by
  have hs := (h.owners.held r s k).mp hr
  have hweight : (φ s).weight = 0 := by
    rw [hs]
    rcases hk with rfl | rfl
    · rfl
    · rfl
  refine h.change (h.lt (by simp [hs])) rfl rfl rfl (h.owners.release hr)
    (h.cells.update_phase (by simp [Phase.cell]))
    (h.flags.update_phase (by simp [Phase.Awaits]) ?_
      (h.flags.retired_update (by simp) (by simp [hs])))
    (Later.reg (by simp [hr])) (by simp [hs]) (by simp [hs]) (fun _ _ => rfl) (by simp) ?_
  · intro r' haw hq _
    rw [hs] at haw
    rw [← haw.1, hw] at hq
    cases hq
  · rw [hweight]
    rfl

/-- A registrant goes on to the next stage with its slot, and may write what belongs to the slot. -/
theorem advance (h : Tracks n st φ) {k k' : Stage P} {t : SlotTable ρ P}
    (hr : st.regs r = .holding s k) (hfree : t.free = st.table.free)
    (hactive : t.active = st.table.active)
    (hcells : Cells t.payload (Function.update φ s (.held r k')))
    (hflags : Flags t.flags t.lastWrite st.device st.reported
      (Function.update st.regs r (.holding s k')) (Function.update φ s (.held r k')))
    (hpayload : ∀ t', t' ≠ s → t.payload t' = st.table.payload t')
    (hcount : t.nArmed + (Phase.held r k).weight = st.table.nArmed + (Phase.held r k').weight) :
    Tracks n ({ st with table := t }.setReg r (.holding s k'))
      (Function.update φ s (.held r k')) := by
  have hs := (h.owners.held r s k).mp hr
  refine h.change (h.lt (by simp [hs])) rfl rfl rfl ?_ hcells hflags (Later.reg (by simp [hr]))
    (by simp [hs]) (by simp [hs]) hpayload (by simp) (by rwa [hs])
  show Owners n t.free t.active _ _ _
  rw [hfree, hactive]
  exact h.owners.advance k' hr

/-- The flag of a claimed slot is reset. -/
theorem resetFlag (h : Tracks n st φ) (hr : st.regs r = .holding s .claimed) :
    Tracks n ({ st with table := st.table.resetFlag s }.setReg r (.holding s .reset))
      (Function.update φ s (.held r .reset)) := by
  have hs := (h.owners.held r s _).mp hr
  refine h.advance hr rfl rfl (h.cells.update_phase (by simp [Phase.cell]))
    (h.flags.resetFlag.update_phase ?_ (by simp [hs, Phase.Awaits])
      (h.flags.retired_update (by simp) (by simp [hs]))) (fun _ _ => rfl) rfl
  -- the flag is cleared
  intro r' _ hset
  rw [Function.update_self] at hset
  exact absurd hset (by decide)

/-- A slot keeps its owner: no flag write it awaits is lost. -/
theorem flags_advance (h : Tracks n st φ) {k k' : Stage P} (hs : φ s = .held r k)
    (hk : k ≠ .claimed) (hk' : k' ≠ .claimed) :
    Flags st.table.flags st.table.lastWrite st.device st.reported
      (Function.update st.regs r (.holding s k')) (Function.update φ s (.held r k')) := by
  refine h.flags.update_phase (fun r' haw => ?_) (fun r' haw _ _ => ?_)
    (h.flags.retired_update (by simp) (by simp [hs]))
  · exact h.flags.own s r' (by rw [hs]; exact ⟨haw.1, hk⟩)
  · rw [hs] at haw
    exact ⟨haw.1, hk'⟩

/-- The payload is stored behind the reset. -/
theorem storePayload (h : Tracks n st φ) (p : P) (hr : st.regs r = .holding s .reset) :
    Tracks n ({ st with table := st.table.storePayload s ⟨r, p⟩ }.setReg r
      (.holding s (.stored p))) (Function.update φ s (.held r (.stored p))) :=
  h.advance hr rfl rfl (h.cells.update _ (by simp [Phase.cell]))
    (h.flags_advance ((h.owners.held r s _).mp hr) (by simp) (by simp))
    (fun _ ht => Function.update_of_ne ht _ _) rfl

/-- The slot is counted; the counter has room for every slot. -/
theorem countArmed (h : Tracks n st φ) (hn : n * 8 < 2 ^ 63) {p : P}
    (hr : st.regs r = .holding s (.stored p)) :
    Tracks n ({ st with table := st.table.countArmed }.setReg r
      (.holding s (.counted p st.table.isIdle)))
      (Function.update φ s (.held r (.counted p st.table.isIdle))) := by
  have hs := (h.owners.held r s _).mp hr
  -- the free list is a vector of indices, so twice the number of slots is a machine integer
  have hsmall : st.table.nArmed + 1 < 2 ^ 64 := by
    have hcount := h.counter
    have hsum := total_le n φ
    have hun := h.uncounted_le
    omega
  refine h.advance hr rfl rfl (h.cells.update_phase (by simp [hs, Phase.cell]))
    (h.flags_advance hs (by simp) (by simp)) (fun _ _ => rfl) ?_
  show fetchAdd st.table.nArmed 1 + 0 = st.table.nArmed + 1
  rw [fetchAdd, if_pos hsmall]

/-- The slot is published in the bitmap. -/
theorem setActive (h : Tracks n st φ) {p : P} {b : Bool}
    (hr : st.regs r = .holding s (.counted p b)) :
    Tracks n ({ st with table := st.table.setActive s }.setReg r (.published s p b))
      (Function.update φ s (.armed r p)) := by
  have hs := (h.owners.held r s _).mp hr
  refine h.change (h.lt (by simp [hs])) rfl rfl rfl (h.owners.setActive hr)
    (h.cells.update_phase (by simp [hs, Phase.cell]))
    (h.flags.update_phase (fun r' haw => ?_) (fun r' haw _ _ => ?_)
      (h.flags.retired_update ?_ (by simp [hs])))
    (Later.reg (by simp [hr])) (by simp [hs]) (by simp [hs]) (fun _ _ => rfl) ?_
    (by simp [hs, Phase.weight, State.setReg, SlotTable.setActive])
  · exact h.flags.own s r' (by rw [hs]; exact ⟨haw, by simp⟩)
  · rw [hs] at haw
    exact haw.1
  · intro t q c heq
    cases heq
    exact ⟨rfl, rfl⟩
  · intro r' q heq t q' c
    cases heq
    simp [hr]

/-- The flag write of a registration is enqueued, or executed: no phase changes. -/
theorem device (h : Tracks n st φ) {t : SlotTable ρ P} {x : FlagWrite}
    (hfree : t.free = st.table.free) (hactive : t.active = st.table.active)
    (hpayload : t.payload = st.table.payload) (hcount : t.nArmed = st.table.nArmed)
    (hflags : Flags t.flags t.lastWrite (Function.update st.device r x) st.reported st.regs φ)
    (hx : st.device r ≠ .done ∨ x = .done) :
    Tracks n ({ st with table := t }.setDevice r x) φ where
  owners := by
    show Owners n t.free t.active _ _ _
    rw [hfree, hactive]
    exact h.owners
  cells := by
    show Cells t.payload _
    rw [hpayload]
    exact h.cells
  flags := hflags
  scan sc hsc := by
    refine (h.scan sc hsc).frame (Later.setDevice hx) (fun _ _ _ => id) fun u hu => ⟨hu, ?_⟩
    show t.payload u = _
    rw [hpayload]
  handed := h.handed.frame (Later.setDevice hx) fun _ _ _ hph => .inl hph
  counter := hcount.trans h.counter
  uncounted_le := h.uncounted_le

/-- The device is told which flag to write. -/
theorem arm (h : Tracks n st φ)
    (hr : (∃ k, k ≠ .claimed ∧ st.regs r = .holding s k) ∨ ∃ p b, st.regs r = .published s p b)
    (hw : st.device r = .none) : Tracks n (st.setDevice r (.queued s)) φ := by
  refine h.device rfl rfl rfl rfl (h.flags.arm hw ?_) (.inl (by rw [hw]; simp))
  rcases hr with ⟨k, hk, hhold⟩ | ⟨p, b, hpub⟩
  · rw [(h.owners.held r s k).mp hhold]
    exact .inl ⟨rfl, hk⟩
  · -- a registration that is over was woken, so its write is done, or was reported dead
    rcases h.flags.retired r s p b hpub with hph | hdone | hrep
    · rw [hph]
      exact .inl rfl
    · rw [hw] at hdone
      cases hdone
    · exact .inr hrep

/-- The device writes the flag of the slot that the registration holds. -/
theorem writeFlag (h : Tracks n st φ) (hw : st.device r = .queued s)
    (halive : st.reported r = false) :
    Tracks n ({ st with table := st.table.writeFlag s r }.setDevice r .done) φ :=
  h.device rfl rfl rfl rfl (h.flags.writeFlag hw halive) (.inr rfl)

/-- The probe has judged the payload of the slot. -/
theorem scanDead (h : Tracks n st φ) {p : Payload ρ P} (hs : st.scan = some sc)
    (hp : sc.point = .probe s) (hcell : st.table.payload s = some p) :
    Tracks n { st with
      scan := some { sc with point := .clear s false none }
      reported := Function.update st.reported p.owner true } φ := by
  have hsound := h.scan sc hs
  have hknows := hsound.knows
  rw [hp] at hknows
  obtain ⟨r, q, harmed⟩ := hknows
  have howner : p = ⟨r, q⟩ := by
    rw [h.cells s ⟨r, q⟩ (by rw [harmed]; rfl)] at hcell
    exact (Option.some.inj hcell).symm
  refine ⟨?_, h.cells, h.flags.report p.owner, fun sc' hsc => ?_,
    h.handed.frame (Later.report p.owner) fun _ _ _ hph => .inl hph, ?_, ?_⟩
  · have hret : st.retiring = sc.retired := by simp [State.retiring, Scan.retiring, hs, hp]
    have howners := h.owners
    rw [hret] at howners
    exact howners
  · cases hsc
    refine ⟨fun _ i hi => ?_, r, q, harmed, by simp, fun _ => ?_⟩
    · obtain ⟨hph, hne⟩ := hsound.bits (by rw [hp]; rfl) i hi
      rw [hp] at hne
      exact ⟨hph, hne⟩
    · rw [howner]
      exact Function.update_self ..
  · have hun : st.uncounted = 0 := by simp [State.uncounted, hs, hp]
    have hcount := h.counter
    rw [hun] at hcount
    exact hcount
  · exact Nat.zero_le n

/-- Every step of every thread leaves a state that phases explain. -/
theorem step {st' : State ρ P} (h : Tracks n st φ) (hn : n * 8 < 2 ^ 63) (hstep : Step n st st') :
    ∃ φ', Tracks n st' φ' := by
  cases hstep with
  | claim hr ht => exact ⟨_, h.claim hr ht⟩
  | release hr hk hw => exact ⟨_, h.release hr hk hw⟩
  | resetFlag hr => exact ⟨_, h.resetFlag hr⟩
  | arm hr hw => exact ⟨_, h.arm hr hw⟩
  | writeFlag hw halive => exact ⟨_, h.writeFlag hw halive⟩
  | storePayload p hr => exact ⟨_, h.storePayload p hr⟩
  | countArmed hr => exact ⟨_, h.countArmed hn hr⟩
  | setActive hr => exact ⟨_, h.setActive hr⟩
  | scanStart probing hs => exact ⟨_, h.scanStart probing hs⟩
  | scanWord hs hp _ => exact ⟨_, h.scanWord hs hp⟩
  | scanWordEnd hs hp _ => exact ⟨_, h.scanWordEnd hs hp⟩
  | scanFlag hs hp hbits hslot _ => exact ⟨_, h.scanFlag hs hp hbits hslot⟩
  | scanDead hs hp hcell => exact ⟨_, h.scanDead hs hp hcell⟩
  | scanAlive hs hp => exact ⟨_, h.scanAlive hs hp⟩
  | scanClear hs hp => exact ⟨_, h.scanClear hs hp⟩
  | scanTake hs hp => exact ⟨_, h.scanTake hs hp⟩
  | scanWordsEnd hs hp _ => exact ⟨_, h.scanWordsEnd hs hp⟩
  | scanRecycle hs hp => exact ⟨_, h.scanRecycle hs hp⟩
  | scanEnd hs hp => exact ⟨_, h.scanEnd hs hp⟩

/-- Phases explain every state of every run. -/
theorem reachable (hn : n * 8 < 2 ^ 63) (h : (protocol ρ P n).Reachable st) :
    ∃ φ, Tracks n st φ := by
  refine h.invariant (I := fun s => ∃ φ, Tracks n s φ) (fun s hs => ?_) fun s s' hs hstep => ?_
  · obtain ⟨flags, rfl⟩ := hs
    exact ⟨_, initial n flags⟩
  · obtain ⟨φ, hφ⟩ := hs
    exact hφ.step hn hstep

end Tracks

/-! ### What the table guarantees -/

/-- The four places where a slot can be. -/
inductive Standing where
  | free
  | claimed
  | armed
  | retiring

/-- Where a slot is: in the free list, with a registrant, in the active bitmap, or with the scanner,
which has cleared its bit and not yet recycled it. -/
def State.Stands (st : State ρ P) (s : ℕ) : Standing → Prop
  | .free => s ∈ st.table.free
  | .claimed => ∃ r stage, st.regs r = .holding s stage
  | .armed => st.table.active.Mem s
  | .retiring => s ∈ st.retiring

/-- No `publish` and no scan is under way. -/
def State.Quiet (st : State ρ P) : Prop :=
  st.scan = none ∧ ∀ r s stage, st.regs r = .holding s stage → stage = .claimed ∨ stage = .reset

/-- The guarantees of the slot table. -/
structure State.Safe (n : ℕ) (st : State ρ P) : Prop where
  free_nodup : st.table.free.Nodup
  /-- every slot is in exactly one place -/
  stands : ∀ s < n, ∃! k, st.Stands s k
  /-- and has one claimant at most -/
  claimant : ∀ r r' s k k', st.regs r = .holding s k → st.regs r' = .holding s k' → r = r'
  /-- a payload is handed out as it was published, to one list, once -/
  once : ((handed st.woken st.dead).map fun p => p.owner).Nodup
  published : ∀ p ∈ handed st.woken st.dead, ∃ s b, st.regs p.owner = .published s p.value b
  /-- its own flag write is done, and was the one that the scanner saw -/
  woken : ∀ d ∈ st.woken, st.device d.payload.owner = .done ∧ d.writer = some d.payload.owner
  dead : ∀ p ∈ st.dead, st.reported p.owner = true
  no_underflow : ∀ sc k, st.scan = some sc → sc.point = .subtract k → k ≤ st.table.nArmed
  counter : st.Quiet → st.table.nArmed = ((Finset.range n).filter st.table.active.Mem).card

namespace Tracks

variable {n : ℕ} {st : State ρ P} {φ : ℕ → Phase ρ P}

/-- The phase of a slot says where it stands. -/
theorem stands (h : Tracks n st φ) {s : ℕ} (hs : s < n) : ∃! k, st.Stands s k := by
  have hfree : st.Stands s .free ↔ φ s = .free := h.owners.mem_free s
  have hclaimed : st.Stands s .claimed ↔ ∃ r k, φ s = .held r k := by
    simp only [State.Stands, h.owners.held]
  have harmed : st.Stands s .armed ↔ ∃ r p, φ s = .armed r p := h.owners.mem_active s
  have hret : st.Stands s .retiring ↔ φ s = .retiring := h.owners.mem_retiring s
  cases hph : φ s with
  | absent => exact absurd hs (not_lt.mpr ((h.owners.absent s).mp hph))
  | free =>
    refine ⟨.free, hfree.mpr hph, fun k hk => ?_⟩
    cases k
    all_goals simp [hclaimed, harmed, hret, hph] at hk ⊢
  | held r k =>
    refine ⟨.claimed, hclaimed.mpr ⟨r, k, hph⟩, fun k hk => ?_⟩
    cases k
    all_goals simp [hfree, harmed, hret, hph] at hk ⊢
  | armed r p =>
    refine ⟨.armed, harmed.mpr ⟨r, p, hph⟩, fun k hk => ?_⟩
    cases k
    all_goals simp [hfree, hclaimed, hret, hph] at hk ⊢
  | retiring =>
    refine ⟨.retiring, hret.mpr hph, fun k hk => ?_⟩
    cases k
    all_goals simp [hfree, hclaimed, harmed, hph] at hk ⊢

/-- When nothing is under way, only armed slots are counted. -/
theorem counter_of_quiet (h : Tracks n st φ) (hq : st.Quiet) :
    st.table.nArmed = ((Finset.range n).filter st.table.active.Mem).card := by
  have hret : st.retiring = [] := by rw [State.retiring, hq.1]
  have hun : st.uncounted = 0 := by rw [State.uncounted, hq.1]
  have hweight : ∀ s, (φ s).weight = if st.table.active.Mem s then 1 else 0 := by
    intro s
    have harmed := h.owners.mem_active s
    cases hph : φ s with
    | absent => simp [harmed, hph, Phase.weight]
    | free => simp [harmed, hph, Phase.weight]
    | held r k =>
      rcases hq.2 r s k ((h.owners.held r s k).mpr hph) with rfl | rfl
      · simp [harmed, hph, Phase.weight]
      · simp [harmed, hph, Phase.weight]
    | armed r p => simp [harmed, hph, Phase.weight]
    | retiring =>
      have hmem := (h.owners.mem_retiring s).mpr hph
      rw [hret] at hmem
      exact absurd hmem List.not_mem_nil
  rw [h.counter, hun, add_zero, total, Finset.sum_congr rfl fun s _ => hweight s,
    Finset.card_filter]

end Tracks

/-- **The slot protocol is safe.**  In every state of every run the free list has no duplicates,
every slot is in one place, payloads are handed out once and for their own reason, and the armed
counter does not underflow and counts the armed slots whenever nothing is under way.  The free list
is a vector of 8-byte indices, which bounds the number of slots. -/
theorem slotTable_safe [DecidableEq ρ] {n : ℕ} {st : State ρ P} (hn : n * 8 < 2 ^ 63)
    (h : (protocol ρ P n).Reachable st) : st.Safe n := by
  obtain ⟨φ, hφ⟩ := Tracks.reachable hn h
  refine ⟨hφ.owners.free_nodup, fun s hs => hφ.stands hs, fun r r' s k k' hr hr' => ?_,
    hφ.handed.nodup, hφ.handed.published, hφ.handed.woken, hφ.handed.dead, fun sc k hs hp => ?_,
    hφ.counter_of_quiet⟩
  · rw [hφ.owners.held] at hr hr'
    rw [hr] at hr'
    cases hr'
    rfl
  · have hun : st.uncounted = k := by simp [State.uncounted, hs, hp]
    rw [hφ.counter, hun]
    exact Nat.le_add_left k _

/-- A registration takes the only slot and publishes, the device writes its flag, and a scan hands
its payload out. -/
theorem slotTable_safe_handoff : ∃ st : State Unit String,
    st.woken = [⟨⟨(), "waker"⟩, some ()⟩] ∧ st.Safe 1 := by
  have h0 : (protocol Unit String 1).Reachable (.initial 1 fun _ => 0) := .init ⟨_, rfl⟩
  have h1 := h0.step (.claim (r := ()) rfl rfl)
  have h2 := h1.step (.resetFlag (r := ()) rfl)
  have h3 := h2.step (.arm (r := ()) (.inl ⟨_, by simp, rfl⟩) rfl)
  have h4 := h3.step (.storePayload (r := ()) "waker" rfl)
  have h5 := h4.step (.countArmed (r := ()) rfl)
  have h6 := h5.step (.setActive (r := ()) rfl)
  have h7 := h6.step (.writeFlag (r := ()) rfl rfl)
  have h8 := h7.step (.scanStart false rfl)
  have h9 := h8.step (.scanWord rfl rfl (by decide))
  have h10 := h9.step (.scanFlag rfl rfl (by decide) (show 0 = _ by decide +kernel)
    (by decide))
  have h11 := h10.step (.scanClear rfl rfl)
  have h12 := h11.step (.scanTake rfl rfl)
  exact ⟨_, rfl, slotTable_safe (by decide) h12⟩

end CudaOxide.Async
