import CudaOxide.Mir.Canonicalize.CheckedStep

/-!
# What the scan of the arm has seen

`Scan.next` reads the operations of the arm from front to back.  What it records is said here once,
so that no later proof has to go through the scan again.

* `Scan.Role` — each operation of the arm by its place in the chain from the checked pair to the
  flag.
* `Scan.Seen` — the invariant of the scan; `Scan.seen` is its run lemma.
-/

namespace CudaOxide.Mir

open Lib Lib.Ssa

variable {β : Type*}

/-- The operation whose pair of sum and flag the arm takes apart. -/
def checkedKind (subtract : Bool) : OpKind := if subtract then .checkedSub else .checkedAdd

/-- What the scan skips. -/
def Skipped : OpKind → Prop
  | .storageLive | .storageDead | .constant _ => True
  | _ => False

namespace Scan

/-- The place of an operation in the chain, by what the scan has recorded. -/
inductive Role (st : Scan β) (op : Op β OpCode) : Prop
  | skip : Skipped op.code.kind → Role st op
  | checked {a b : Value β} {subtract : Bool} : op.code.kind = checkedKind subtract →
    op.operands = [a, b] → st.checked = some (.result op.id 0, a, b, subtract) → Role st op
  | store {p pair a b : Value β} {subtract : Bool} : op.code.kind = .store false →
    op.operands = [p, pair] → st.slot = some p →
      st.checked = some (pair, a, b, subtract) → Role st op
  | fieldAddr {i : ℕ} {p : Value β} : op.code.kind = .fieldAddr (some i) → op.operands = [p] →
    st.slot = some p → st.addresses i = some (.result op.id 0) → Role st op
  | load {i : ℕ} {a : Value β} : op.code.kind = .load false → op.operands = [a] →
    st.addresses i = some a → st.loaded i = some (.result op.id 0) → Role st op
  | not {x : Value β} : op.code.kind = .not → op.operands = [x] → st.loaded 1 = some x →
    st.flag = some (.result op.id 0) → Role st op

/-- What one operation changes in the records. -/
inductive Recorded (st : Scan β) (op : Op β OpCode) : Scan β → Prop
  | skip : Skipped op.code.kind → Recorded st op st
  | checked {a b : Value β} {subtract : Bool} : op.code.kind = checkedKind subtract →
    op.operands = [a, b] → st.checked = none →
    Recorded st op
      { st with checked := some (.result op.id 0, a, b, subtract), chain := st.chain ++ [op] }
  | store {p pair a b : Value β} {subtract : Bool} : op.code.kind = .store false →
    op.operands = [p, pair] → st.slot = none → st.checked = some (pair, a, b, subtract) →
    Recorded st op { st with slot := some p, chain := st.chain ++ [op] }
  | fieldAddr {i : ℕ} {p : Value β} : op.code.kind = .fieldAddr (some i) → op.operands = [p] →
    st.slot = some p → st.addresses i = none →
    Recorded st op { st with
      addresses := Function.update st.addresses i (some (.result op.id 0))
      chain := st.chain ++ [op] }
  | load {i : ℕ} {a : Value β} : op.code.kind = .load false → op.operands = [a] →
    st.addresses i = some a → st.loaded i = none →
    Recorded st op { st with
      loaded := Function.update st.loaded i (some (.result op.id 0))
      chain := st.chain ++ [op] }
  | not {x : Value β} : op.code.kind = .not → op.operands = [x] → st.loaded 1 = some x →
    st.flag = none → Recorded st op { st with
      flag := some (.result op.id 0)
      chain := st.chain ++ [op] }

variable {st st' : Scan β} {op : Op β OpCode} {ops : List (Op β OpCode)} {i : ℕ}

/-- A position is one of the recorded addresses. -/
theorem position_eq_some [DecidableEq β] {a : Value β} (h : st.position a = some i) :
    st.addresses i = some a := by
  unfold position at h
  split at h
  · rename_i h₀
    cases h
    exact h₀
  · split at h
    · rename_i h₁
      cases h
      exact h₁
    · cases h

/-- What the scan records for an operation. -/
theorem recorded_of_next [DecidableEq β] (h : st.next op = some st') : Recorded st op st' := by
  unfold next at h
  simp only at h
  split at h
  -- a checked operation, of either kind, or another one that is known
  · rename_i hkind
    cases h
    exact .skip (by rw [hkind]; trivial)
  · rename_i hkind
    cases h
    exact .skip (by rw [hkind]; trivial)
  · rename_i hkind
    cases h
    exact .skip (by rw [hkind]; trivial)
  -- a value may be recorded once only
  · rename_i hkind hoperands
    split at h
    · cases h
    · rename_i hnone
      cases h
      exact .checked hkind hoperands (by simpa using hnone)
  · rename_i hkind hoperands
    split at h
    · cases h
    · rename_i hnone
      cases h
      exact .checked hkind hoperands (by simpa using hnone)
  -- the store takes the checked pair to the slot
  · rename_i volatile p v hkind hoperands
    split at h
    · cases h
    · rename_i hno
      simp only [not_or, not_not, Bool.not_eq_true, Option.map_eq_some_iff] at hno
      obtain ⟨hslot, rfl, ⟨pair, a, b, subtract⟩, hchecked, rfl⟩ := hno
      cases h
      exact .store hkind hoperands (by simpa using hslot) hchecked
  -- the address of a field of the slot
  · rename_i n p hkind hoperands
    split at h
    · cases h
    · rename_i hno
      simp only [not_or, not_not] at hno
      cases h
      exact .fieldAddr hkind hoperands hno.1 (by simpa using hno.2.2)
  -- a load from one of these addresses
  · rename_i volatile a hkind hoperands
    split at h
    · cases h
    · rename_i n hposition
      split at h
      · cases h
      · rename_i hno
        simp only [not_or, Bool.not_eq_true] at hno
        obtain ⟨rfl, hloaded⟩ := hno
        cases h
        exact .load hkind hoperands (position_eq_some hposition) (by simpa using hloaded)
  -- the negation of the loaded flag
  · rename_i a hkind hoperands
    split at h
    · cases h
    · rename_i hno
      simp only [not_or, not_not] at hno
      cases h
      exact .not hkind hoperands hno.2.symm (by simpa using hno.1)
  · cases h

/-- Nothing that is recorded is ever replaced. -/
structure Le (st st' : Scan β) : Prop where
  checked : ∀ t, st.checked = some t → st'.checked = some t
  slot : ∀ p, st.slot = some p → st'.slot = some p
  addresses : ∀ i a, st.addresses i = some a → st'.addresses i = some a
  loaded : ∀ i x, st.loaded i = some x → st'.loaded i = some x
  flag : ∀ v, st.flag = some v → st'.flag = some v

/-- Recording a first value keeps the values that are there. -/
theorem update_of_none {g : ℕ → Option (Value β)} {n : ℕ} {v : Option (Value β)} (h : g n = none)
    {k : ℕ} {x : Value β} (hx : g k = some x) : Function.update g n v k = some x := by
  rw [Function.update_of_ne, hx]
  rintro rfl
  rw [h] at hx
  cases hx

/-- Recording only adds. -/
theorem Recorded.le (h : Recorded st op st') : Le st st' := by
  cases h with
  | skip _ => exact ⟨fun _ h => h, fun _ h => h, fun _ _ h => h, fun _ _ h => h, fun _ h => h⟩
  | checked _ _ hnone =>
    refine ⟨fun t h => ?_, fun _ h => h, fun _ _ h => h, fun _ _ h => h, fun _ h => h⟩
    rw [hnone] at h
    cases h
  | store _ _ hnone _ =>
    refine ⟨fun _ h => h, fun p h => ?_, fun _ _ h => h, fun _ _ h => h, fun _ h => h⟩
    rw [hnone] at h
    cases h
  | fieldAddr _ _ _ hnone =>
    exact ⟨fun _ h => h, fun _ h => h, fun _ _ h => update_of_none hnone h, fun _ _ h => h,
      fun _ h => h⟩
  | load _ _ _ hnone =>
    exact ⟨fun _ h => h, fun _ h => h, fun _ _ h => h, fun _ _ h => update_of_none hnone h,
      fun _ h => h⟩
  | not _ _ _ hnone =>
    refine ⟨fun _ h => h, fun _ h => h, fun _ _ h => h, fun _ _ h => h, fun v h => ?_⟩
    rw [hnone] at h
    cases h

/-- Recording more keeps the role of an operation. -/
theorem Role.mono (h : st.Role op) (hle : Le st st') : st'.Role op := by
  cases h with
  | skip hkind => exact .skip hkind
  | checked hkind hops h => exact .checked hkind hops (hle.checked _ h)
  | store hkind hops h h' => exact .store hkind hops (hle.slot _ h) (hle.checked _ h')
  | fieldAddr hkind hops h h' => exact .fieldAddr hkind hops (hle.slot _ h) (hle.addresses _ _ h')
  | load hkind hops h h' => exact .load hkind hops (hle.addresses _ _ h) (hle.loaded _ _ h')
  | not hkind hops h h' => exact .not hkind hops (hle.loaded _ _ h) (hle.flag _ h')

/-- An operation that is recorded has its role. -/
theorem Recorded.role (h : Recorded st op st') : st'.Role op := by
  cases h with
  | skip hkind => exact .skip hkind
  | checked hkind hops _ => exact .checked hkind hops rfl
  | store hkind hops _ h => exact .store hkind hops rfl h
  | fieldAddr hkind hops h _ => exact .fieldAddr hkind hops h (Function.update_self ..)
  | load hkind hops h _ => exact .load hkind hops h (Function.update_self ..)
  | not hkind hops h _ => exact .not hkind hops h rfl

/-- One of the first `i` operations is as `P` says. -/
def Found (ops : List (Op β OpCode)) (i : ℕ) (P : Op β OpCode → Prop) : Prop :=
  ∃ k op, k < i ∧ ops[k]? = some op ∧ P op

/-- Operations found before `i` are found before `j`. -/
theorem Found.mono {P P' : Op β OpCode → Prop} {j : ℕ} (h : Found ops i P) (hij : i ≤ j)
    (hP : ∀ op, P op → P' op) : Found ops j P' := by
  obtain ⟨k, op, hk, hop, h⟩ := h
  exact ⟨k, op, hk.trans_le hij, hop, hP op h⟩

/-- **The invariant of the scan**, behind the first `i` operations: each of them has a role, and
whatever is recorded comes from one of them. -/
structure Seen (ops : List (Op β OpCode)) (i : ℕ) (st : Scan β) : Prop where
  role : ∀ k op, k < i → ops[k]? = some op → st.Role op
  checked : ∀ t, st.checked = some t →
    Found ops i fun op => op.code.kind = checkedKind t.2.2.2 ∧ t.1 = .result op.id 0
  slot : ∀ p, st.slot = some p → Found ops i fun op => op.code.kind = .store false
  /-- The address of a field is taken behind the store. -/
  addresses : ∀ n a, st.addresses n = some a → ∃ k op, k < i ∧ ops[k]? = some op ∧
    op.code.kind = .fieldAddr (some n) ∧ a = .result op.id 0 ∧
    Found ops k fun op => op.code.kind = .store false
  loaded : ∀ n x, st.loaded n = some x → Found ops i fun op => op.code.kind = .load false ∧
    x = .result op.id 0 ∧ ∃ a, op.operands = [a] ∧ st.addresses n = some a
  flag : ∀ v, st.flag = some v → Found ops i fun op => op.code.kind = .not ∧ v = .result op.id 0
  store_unique : ∀ k op k' op', k < i → ops[k]? = some op → op.code.kind = .store false →
    k' < i → ops[k']? = some op' → op'.code.kind = .store false → k = k'
  chain : ∀ op ∈ st.chain, Found ops i fun op' => op' = op

/-- At the start nothing was seen. -/
theorem Seen.empty (ops : List (Op β OpCode)) : Seen ops 0 Scan.empty where
  role k op hk := absurd hk (Nat.not_lt_zero _)
  checked t h := by cases h
  slot p h := by cases h
  addresses n a h := by cases h
  loaded n x h := by cases h
  flag v h := by cases h
  store_unique k op k' op' hk := absurd hk (Nat.not_lt_zero _)
  chain op h := by cases h

/-- A checked operation was recorded before or is this one. -/
theorem Recorded.checked_or {t : Value β × Value β × Value β × Bool} (h : Recorded st op st')
    (ht : st'.checked = some t) :
    st.checked = some t ∨ (op.code.kind = checkedKind t.2.2.2 ∧ t.1 = .result op.id 0) := by
  cases h with
  | checked hkind _ _ =>
    cases ht
    exact .inr ⟨hkind, rfl⟩
  | _ => exact .inl ht

/-- The slot was recorded before or this operation stores to it. -/
theorem Recorded.slot_or {p : Value β} (h : Recorded st op st') (hp : st'.slot = some p) :
    st.slot = some p ∨ op.code.kind = .store false := by
  cases h with
  | store hkind _ _ _ => exact .inr hkind
  | _ => exact .inl hp

/-- An address was recorded before or this operation computes it. -/
theorem Recorded.addresses_or {n : ℕ} {a : Value β} (h : Recorded st op st')
    (ha : st'.addresses n = some a) : st.addresses n = some a ∨
      (op.code.kind = .fieldAddr (some n) ∧ a = .result op.id 0 ∧ ∃ p, st.slot = some p) := by
  cases h with
  | @fieldAddr i p hkind _ hslot _ =>
    have ha : Function.update st.addresses i (some (.result op.id 0)) n = some a := ha
    by_cases hn : n = i
    · subst hn
      rw [Function.update_self] at ha
      exact .inr ⟨hkind, (Option.some.inj ha).symm, p, hslot⟩
    · rw [Function.update_of_ne hn] at ha
      exact .inl ha
  | _ => exact .inl ha

/-- A loaded field was recorded before or this operation loads it. -/
theorem Recorded.loaded_or {n : ℕ} {x : Value β} (h : Recorded st op st')
    (hx : st'.loaded n = some x) : st.loaded n = some x ∨ (op.code.kind = .load false ∧
      x = .result op.id 0 ∧ ∃ a, op.operands = [a] ∧ st.addresses n = some a) := by
  cases h with
  | @load i a hkind hops haddr _ =>
    have hx : Function.update st.loaded i (some (.result op.id 0)) n = some x := hx
    by_cases hn : n = i
    · subst hn
      rw [Function.update_self] at hx
      exact .inr ⟨hkind, (Option.some.inj hx).symm, a, hops, haddr⟩
    · rw [Function.update_of_ne hn] at hx
      exact .inl hx
  | _ => exact .inl hx

/-- The flag was recorded before or this operation computes it. -/
theorem Recorded.flag_or {v : Value β} (h : Recorded st op st') (hv : st'.flag = some v) :
    st.flag = some v ∨ (op.code.kind = .not ∧ v = .result op.id 0) := by
  cases h with
  | not hkind _ _ _ =>
    cases hv
    exact .inr ⟨hkind, rfl⟩
  | _ => exact .inl hv

/-- An operation of the chain was in it before or is this one. -/
theorem Recorded.chain_or {op' : Op β OpCode} (h : Recorded st op st') (hop' : op' ∈ st'.chain) :
    op' ∈ st.chain ∨ op' = op := by
  cases h with
  | skip _ => exact .inl hop'
  | _ => simpa using hop'

/-- A store is only recorded while there is none. -/
theorem Recorded.slot_of_store (h : Recorded st op st') (hkind : op.code.kind = .store false) :
    st.slot = none := by
  cases h with
  | store _ _ hnone _ => exact hnone
  | skip h =>
    rw [hkind] at h
    cases h
  | @checked _ _ subtract h _ _ =>
    rw [hkind] at h
    cases subtract <;> cases h
  | fieldAddr h _ _ _ | load h _ _ _ | not h _ _ _ =>
    rw [hkind] at h
    cases h

/-- What a store of the chain writes. -/
theorem Role.slot_of_store (h : st.Role op) (hkind : op.code.kind = .store false) :
    ∃ p pair a b subtract, op.operands = [p, pair] ∧ st.slot = some p ∧
      st.checked = some (pair, a, b, subtract) := by
  cases h with
  | store _ hops hslot hchecked => exact ⟨_, _, _, _, _, hops, hslot, hchecked⟩
  | skip h =>
    rw [hkind] at h
    cases h
  | @checked _ _ subtract h _ _ =>
    rw [hkind] at h
    cases subtract <;> cases h
  | fieldAddr h _ _ _ | load h _ _ _ | not h _ _ _ =>
    rw [hkind] at h
    cases h

/-- What a checked operation of the chain computes. -/
theorem Role.checked_of_kind (h : st.Role op) {subtract : Bool}
    (hkind : op.code.kind = checkedKind subtract) :
    ∃ a b, op.operands = [a, b] ∧ st.checked = some (.result op.id 0, a, b, subtract) := by
  cases h with
  | @checked a b subtract' h hops hchecked =>
    rw [hkind] at h
    cases subtract <;> cases subtract' <;> first | exact ⟨a, b, hops, hchecked⟩ | cases h
  | skip h =>
    rw [hkind] at h
    cases subtract <;> cases h
  | store h _ _ _ | fieldAddr h _ _ _ | load h _ _ _ | not h _ _ _ =>
    rw [hkind] at h
    cases subtract <;> cases h

/-- What a field address of the chain points to. -/
theorem Role.slot_of_fieldAddr (h : st.Role op) {n : ℕ}
    (hkind : op.code.kind = .fieldAddr (some n)) :
    ∃ p, op.operands = [p] ∧ st.slot = some p := by
  cases h with
  | fieldAddr _ hops hslot _ => exact ⟨_, hops, hslot⟩
  | skip h =>
    rw [hkind] at h
    cases h
  | @checked _ _ subtract h _ _ =>
    rw [hkind] at h
    cases subtract <;> cases h
  | store h _ _ _ | load h _ _ _ | not h _ _ _ =>
    rw [hkind] at h
    cases h

/-- What a negation of the chain reads. -/
theorem Role.loaded_of_not (h : st.Role op) (hkind : op.code.kind = .not) :
    ∃ x, op.operands = [x] ∧ st.loaded 1 = some x := by
  cases h with
  | not _ hops hloaded _ => exact ⟨_, hops, hloaded⟩
  | skip h =>
    rw [hkind] at h
    cases h
  | @checked _ _ subtract h _ _ =>
    rw [hkind] at h
    cases subtract <;> cases h
  | store h _ _ _ | fieldAddr h _ _ _ | load h _ _ _ =>
    rw [hkind] at h
    cases h

/-- One operation more. -/
theorem Seen.next (h : Seen ops i st) (hop : ops[i]? = some op) (hrec : Recorded st op st') :
    Seen ops (i + 1) st' where
  role k op' hk hop' := by
    rcases Nat.lt_succ_iff_lt_or_eq.mp hk with hlt | rfl
    · exact (h.role k op' hlt hop').mono hrec.le
    · obtain rfl : op = op' := Option.some.inj (hop.symm.trans hop')
      exact hrec.role
  checked t ht := by
    rcases hrec.checked_or ht with ht | hnew
    · exact (h.checked t ht).mono (Nat.le_succ i) fun _ h => h
    · exact ⟨i, op, Nat.lt_succ_self i, hop, hnew⟩
  slot p hp := by
    rcases hrec.slot_or hp with hp | hnew
    · exact (h.slot p hp).mono (Nat.le_succ i) fun _ h => h
    · exact ⟨i, op, Nat.lt_succ_self i, hop, hnew⟩
  addresses n a ha := by
    rcases hrec.addresses_or ha with ha | ⟨hkind, ha, p, hp⟩
    · obtain ⟨k, op', hk, hop', hrest⟩ := h.addresses n a ha
      exact ⟨k, op', Nat.lt_succ_of_lt hk, hop', hrest⟩
    · exact ⟨i, op, Nat.lt_succ_self i, hop, hkind, ha, h.slot p hp⟩
  loaded n x hx := by
    rcases hrec.loaded_or hx with hx | ⟨hkind, hx, a, hops, ha⟩
    · refine (h.loaded n x hx).mono (Nat.le_succ i) ?_
      rintro op' ⟨hkind, hx, a, hops, ha⟩
      exact ⟨hkind, hx, a, hops, hrec.le.addresses n a ha⟩
    · exact ⟨i, op, Nat.lt_succ_self i, hop, hkind, hx, a, hops, hrec.le.addresses n a ha⟩
  flag v hv := by
    rcases hrec.flag_or hv with hv | hnew
    · exact (h.flag v hv).mono (Nat.le_succ i) fun _ h => h
    · exact ⟨i, op, Nat.lt_succ_self i, hop, hnew⟩
  store_unique k op₁ k' op₂ hk hop₁ hkind₁ hk' hop₂ hkind₂ := by
    -- an earlier store has set the slot, and then no second one is recorded
    have hfirst : ∀ j op', j < i → ops[j]? = some op' → op'.code.kind = .store false →
        op.code.kind ≠ .store false := by
      intro j op' hj hop' hkind' hkind
      obtain ⟨p, pair, a, b, subtract, -, hslot, -⟩ := (h.role j op' hj hop').slot_of_store hkind'
      rw [hrec.slot_of_store hkind] at hslot
      cases hslot
    rcases Nat.lt_succ_iff_lt_or_eq.mp hk with hlt | rfl
    · rcases Nat.lt_succ_iff_lt_or_eq.mp hk' with hlt' | rfl
      · exact h.store_unique k op₁ k' op₂ hlt hop₁ hkind₁ hlt' hop₂ hkind₂
      · obtain rfl : op = op₂ := Option.some.inj (hop.symm.trans hop₂)
        exact absurd hkind₂ (hfirst k op₁ hlt hop₁ hkind₁)
    · obtain rfl : op = op₁ := Option.some.inj (hop.symm.trans hop₁)
      rcases Nat.lt_succ_iff_lt_or_eq.mp hk' with hlt' | rfl
      · exact absurd hkind₁ (hfirst k' op₂ hlt' hop₂ hkind₂)
      · rfl
  chain op' hop' := by
    rcases hrec.chain_or hop' with hmem | rfl
    · exact (h.chain op' hmem).mono (Nat.le_succ i) fun _ h => h
    · exact ⟨i, op', Nat.lt_succ_self i, hop, rfl⟩

/-- **The run of the scan.** -/
theorem seen [DecidableEq β] (h : ops.foldlM Scan.next Scan.empty = some st) :
    Seen ops ops.length st := by
  have hrun : ∀ rest i st₀, i ≤ ops.length → Seen ops i st₀ → ops.drop i = rest →
      rest.foldlM Scan.next st₀ = some st → Seen ops ops.length st := by
    intro rest
    induction rest with
    | nil =>
      intro i st₀ hi hseen hdrop hfold
      cases hfold
      rwa [le_antisymm (List.drop_eq_nil_iff.mp hdrop) hi]
    | cons op rest ih =>
      intro i st₀ _ hseen hdrop hfold
      obtain ⟨st₁, hnext, hfold⟩ := Option.bind_eq_some_iff.mp hfold
      have hop : ops[i]? = some op := by
        rw [← List.head?_drop, hdrop]
        rfl
      refine ih (i + 1) st₁ (List.getElem?_eq_some_iff.mp hop).1
        (hseen.next hop (recorded_of_next hnext)) ?_ hfold
      rw [← List.drop_drop, hdrop]
      rfl
  exact hrun ops 0 _ (Nat.zero_le _) (Seen.empty ops) rfl h

/-- Every operation of the arm but the store leaves the memory as it is. -/
theorem Role.pure (h : st.Role op) (hkind : op.code.kind ≠ .store false) :
    (∀ volatile, op.code.kind ≠ .store volatile) ∧ ∀ n, op.code.kind ≠ .other n := by
  cases h with
  | store h _ _ _ => exact absurd h hkind
  | skip h =>
    constructor
    · intro volatile heq
      rw [heq] at h
      cases h
    · intro n heq
      rw [heq] at h
      cases h
  | @checked _ _ subtract h _ _ =>
    rw [h]
    cases subtract <;> exact ⟨fun _ => (by simp [checkedKind]), fun _ => (by simp [checkedKind])⟩
  | fieldAddr h _ _ _ | load h _ _ _ | not h _ _ _ =>
    rw [h]
    exact ⟨fun _ => (by simp), fun _ => (by simp)⟩

end Scan

end CudaOxide.Mir
