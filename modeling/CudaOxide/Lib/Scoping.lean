import Mathlib.Tactic.Common

/-!
# Numbers for scoped definitions

A stream defines names and uses them, in blocks inside one another.  Definitions are numbered in the
order of the stream, and at the end of a block its numbers are free again.

* `Item`, `definesAll`, `usesAll` — streams, and what occurs in them.
* `numbersAll` — the numbers a reader gives to the uses: it holds the definitions that are in scope
  in the order it met them (`liveAll`).
* `Numbering`, `writtenAll` — the numbers a writer finds in a map from names to numbers that is
  rolled back at the end of a block.

`writtenAll_agrees` says that what the writer finds is what the reader gives, and
`mem_dom_run_block` what the map holds after a block.

* `Admits ss ts` — where every use in `ss` has a number, so has every use in `ts`.  By `Admits.node`
  a check may define names before the blocks in which they are not used.
* `Writable ss st` — a stream that defines new names is written; then it does not use what is only
  defined afterwards (`Writable.not_mem_uses`).
-/

namespace CudaOxide.Lib.Scoping

variable {ν : Type}

/-- An item of a stream.  A definition without a name takes a number, and nothing can use it. -/
inductive Item (ν : Type) where
  | define (v : Option ν)
  | use (v : ν)
  | block (body : List (Item ν))

open Item

mutual

/-- The names that are defined, in blocks too. -/
def Item.defines : Item ν → List ν
  | define v => v.toList
  | use _ => []
  | block body => definesAll body

/-- What the items of a list define. -/
def definesAll : List (Item ν) → List ν
  | [] => []
  | s :: ss => s.defines ++ definesAll ss

end

mutual

/-- The names that are used, in blocks too. -/
def Item.uses : Item ν → List ν
  | define _ => []
  | use v => [v]
  | block body => usesAll body

/-- What the items of a list use. -/
def usesAll : List (Item ν) → List ν
  | [] => []
  | s :: ss => s.uses ++ usesAll ss

end

section Lists

variable {ss ts : List (Item ν)}

/-- Definitions of an append. -/
@[simp] theorem definesAll_append : definesAll (ss ++ ts) = definesAll ss ++ definesAll ts := by
  induction ss with
  | nil => rfl
  | cons s ss ih => rw [List.cons_append, definesAll, definesAll, ih, List.append_assoc]

/-- Uses of an append. -/
@[simp] theorem usesAll_append : usesAll (ss ++ ts) = usesAll ss ++ usesAll ts := by
  induction ss with
  | nil => rfl
  | cons s ss ih => rw [List.cons_append, usesAll, usesAll, ih, List.append_assoc]

/-- A block defines what its body does. -/
@[simp] theorem definesAll_block (body : List (Item ν)) :
    definesAll [block body] = definesAll body := List.append_nil _

/-- A block uses what its body does. -/
@[simp] theorem usesAll_block (body : List (Item ν)) : usesAll [block body] = usesAll body :=
  List.append_nil _

/-- Uses define nothing. -/
@[simp] theorem definesAll_uses (vs : List ν) : definesAll (vs.map use) = [] := by
  induction vs with
  | nil => rfl
  | cons v vs ih => rw [List.map_cons, definesAll, ih, defines, List.append_nil]

@[simp] theorem usesAll_uses (vs : List ν) : usesAll (vs.map use) = vs := by
  induction vs with
  | nil => rfl
  | cons v vs ih => rw [List.map_cons, usesAll, ih, uses, List.singleton_append]

@[simp] theorem usesAll_defines (rs : List (Option ν)) : usesAll (rs.map define) = [] := by
  induction rs with
  | nil => rfl
  | cons r rs ih => rw [List.map_cons, usesAll, ih, uses, List.append_nil]

/-- What is defined by a list of results. -/
@[simp] theorem mem_definesAll_defines {rs : List (Option ν)} {v : ν} :
    v ∈ definesAll (rs.map define) ↔ some v ∈ rs := by
  induction rs with
  | nil => exact iff_of_false List.not_mem_nil List.not_mem_nil
  | cons r rs ih =>
    rw [List.map_cons, definesAll, defines, List.mem_append, ih, List.mem_cons, Option.mem_toList,
      @eq_comm _ r]

/-- The definitions of a list of values. -/
@[simp] theorem definesAll_values (vs : List ν) :
    definesAll (vs.map fun v => define (some v)) = vs := by
  induction vs with
  | nil => rfl
  | cons v vs ih => rw [List.map_cons, definesAll, ih, defines, Option.toList_some,
      List.singleton_append]

@[simp] theorem usesAll_values (vs : List ν) : usesAll (vs.map fun v => define (some v)) = [] := by
  induction vs with
  | nil => rfl
  | cons v vs ih => rw [List.map_cons, usesAll, ih, uses, List.append_nil]

end Lists

/-! ### The reader -/

mutual

/-- The definitions in scope after an item: at the end of a block those from before it. -/
def Item.live : Item ν → List (Option ν) → List (Option ν)
  | define v, vs => vs ++ [v]
  | use _, vs => vs
  | block body, vs => (liveAll body vs).take vs.length

/-- The values that are live behind a list. -/
def liveAll : List (Item ν) → List (Option ν) → List (Option ν)
  | [], vs => vs
  | s :: ss, vs => liveAll ss (s.live vs)

end

mutual

/-- An item does not make fewer positions. -/
theorem Item.length_live : (s : Item ν) → (vs : List (Option ν)) → vs.length ≤ (s.live vs).length
  | define v, vs => by simp [live]
  | use _, _ => Nat.le_refl _
  | block body, vs => by
    have := length_liveAll body vs
    rw [live, List.length_take]
    omega

/-- Nor does a list of them. -/
theorem length_liveAll : (ss : List (Item ν)) → (vs : List (Option ν)) →
    vs.length ≤ (liveAll ss vs).length
  | [], _ => Nat.le_refl _
  | s :: ss, vs => Nat.le_trans (s.length_live vs) (length_liveAll ss (s.live vs))

end

section Reader

variable [DecidableEq ν]

/-- The number of the latest definition of `v`. -/
def numberOf (v : ν) : List (Option ν) → Option ℕ
  | [] => none
  | x :: xs =>
    match numberOf v xs with
    | some i => some (i + 1)
    | none => if x = some v then some 0 else none

mutual

/-- The number of each use. -/
def Item.numbers : Item ν → List (Option ν) → List (Option ℕ)
  | define _, _ => []
  | use v, vs => [numberOf v vs]
  | block body, vs => numbersAll body vs

/-- The numbers of the uses of a list. -/
def numbersAll : List (Item ν) → List (Option ν) → List (Option ℕ)
  | [], _ => []
  | s :: ss, vs => s.numbers vs ++ numbersAll ss (s.live vs)

end

variable {v : ν} {vs : List (Option ν)}

/-- One more position: the last one that holds a value counts. -/
theorem numberOf_append_singleton (x : Option ν) :
    numberOf v (vs ++ [x]) = if x = some v then some vs.length else numberOf v vs := by
  induction vs with
  | nil => rfl
  | cons y ys ih =>
    rw [List.cons_append, numberOf, ih, numberOf]
    by_cases hx : x = some v
    · rw [if_pos hx, if_pos hx, List.length_cons]
    · rw [if_neg hx, if_neg hx]

/-- The number of a value among the first positions. -/
theorem numberOf_take {i k : ℕ} (h : numberOf v vs = some i) (hi : i < k) :
    numberOf v (vs.take k) = some i := by
  induction vs generalizing i k with
  | nil => cases h
  | cons y ys ih =>
    obtain ⟨k, rfl⟩ : ∃ k', k = k' + 1 := ⟨k - 1, by omega⟩
    rw [List.take_succ_cons, numberOf]
    rw [numberOf] at h
    cases hys : numberOf v ys with
    | some j =>
      simp only [hys, Option.some.injEq] at h
      rw [ih hys (k := k) (by omega), ← h]
    | none =>
      simp only [hys] at h
      -- the name is not defined further on, so it is not defined in a part of that either
      have hnone : numberOf v (ys.take k) = none := by
        clear ih h hi
        induction ys generalizing k with
        | nil => rw [List.take_nil]; rfl
        | cons z zs ihz =>
          rw [numberOf] at hys
          cases k with
          | zero => rfl
          | succ k =>
            rw [List.take_succ_cons, numberOf]
            cases hzs : numberOf v zs with
            | some j => simp [hzs] at hys
            | none =>
              simp only [hzs] at hys
              rw [ihz k hzs]
              exact hys
      rw [hnone]
      exact h

end Reader

/-! ### The writer -/

/-- A map from names to numbers, and the next free number. -/
structure Numbering (ν : Type) where
  map : List (ν × ℕ)
  next : ℕ

namespace Numbering

section

variable [DecidableEq ν]

/-- The number of a value in the map. -/
def get? (st : Numbering ν) (v : ν) : Option ℕ := (st.map.find? (·.1 = v)).map (·.2)

/-- The next number goes to a value, or to none. -/
def assign (st : Numbering ν) : Option ν → Numbering ν
  | some v => ⟨(v, st.next) :: st.map.filter (·.1 ≠ v), st.next + 1⟩
  | none => ⟨st.map, st.next + 1⟩

end

/-- Roll back to the numbers below `saved`. -/
def close (st : Numbering ν) (saved : ℕ) : Numbering ν := ⟨st.map.filter (·.2 < saved), saved⟩

/-- The names in the map. -/
def dom (st : Numbering ν) : List ν := st.map.map (·.1)

end Numbering

open CudaOxide.Lib.Scoping.Numbering

variable [DecidableEq ν]

mutual

/-- The map behind an item; a block gives back the numbers it took. -/
def Item.run : Item ν → Numbering ν → Numbering ν
  | define v, st => st.assign v
  | use _, st => st
  | block body, st => (runAll body st).close st.next

/-- The map behind a list. -/
def runAll : List (Item ν) → Numbering ν → Numbering ν
  | [], st => st
  | s :: ss, st => runAll ss (s.run st)

end

mutual

/-- The number found for each use; nothing where one is not in the map. -/
def Item.written : Item ν → Numbering ν → Option (List ℕ)
  | define _, _ => some []
  | use v, st => (st.get? v).map fun i => [i]
  | block body, st => writtenAll body st

/-- The numbers that a list writes, unless one is missing. -/
def writtenAll : List (Item ν) → Numbering ν → Option (List ℕ)
  | [], _ => some []
  | s :: ss, st => (s.written st).bind fun ns => (writtenAll ss (s.run st)).map (ns ++ ·)

end

section Append

variable {ss ts : List (Item ν)} {st : Numbering ν}

/-- The map behind an append. -/
theorem runAll_append : runAll (ss ++ ts) st = runAll ts (runAll ss st) := by
  induction ss generalizing st with
  | nil => rfl
  | cons s ss ih => rw [List.cons_append, runAll, ih, runAll]

/-- The numbers that an append writes. -/
theorem writtenAll_append :
    writtenAll (ss ++ ts) st =
      (writtenAll ss st).bind fun ns => (writtenAll ts (runAll ss st)).map (ns ++ ·) := by
  induction ss generalizing st with
  | nil =>
    rw [List.nil_append, writtenAll, runAll, Option.bind_some]
    simp
  | cons s ss ih =>
    rw [List.cons_append, writtenAll, ih, writtenAll, runAll]
    cases s.written st with
    | none => rfl
    | some ns =>
      cases writtenAll ss (s.run st) with
      | none => rfl
      | some ms =>
        simp only [Option.bind_some, Option.map_some, Option.map_map]
        congr 1
        funext ks
        exact (List.append_assoc ns ms ks).symm

/-- Uses leave the map alone. -/
theorem runAll_uses (vs : List ν) : runAll (vs.map use) st = st := by
  induction vs with
  | nil => rfl
  | cons v vs ih => rw [List.map_cons, runAll, run, ih]

/-- An append is written if both parts are, one behind the other. -/
theorem isSome_writtenAll_append : (writtenAll (ss ++ ts) st).isSome ↔
    (writtenAll ss st).isSome ∧ (writtenAll ts (runAll ss st)).isSome := by
  rw [writtenAll_append]
  cases writtenAll ss st <;> simp

/-- Uses are written if their values are in the map. -/
theorem isSome_writtenAll_uses {vs : List ν} :
    (writtenAll (vs.map use) st).isSome ↔ ∀ v ∈ vs, (st.get? v).isSome := by
  induction vs with
  | nil => simp [writtenAll]
  | cons v vs ih =>
    rw [List.map_cons, writtenAll, List.forall_mem_cons, ← ih, run, written]
    cases st.get? v <;> simp

/-- Definitions are assigned in order. -/
theorem runAll_defines (rs : List (Option ν)) :
    runAll (rs.map Item.define) st = rs.foldl .assign st := by
  induction rs generalizing st with
  | nil => rfl
  | cons r rs ih => rw [List.map_cons, runAll, ih, List.foldl_cons, run]

/-- Definitions write nothing. -/
theorem writtenAll_defines (rs : List (Option ν)) :
    writtenAll (rs.map Item.define) st = some [] := by
  induction rs generalizing st with
  | nil => rfl
  | cons r rs ih => rw [List.map_cons, writtenAll, ih, written]; rfl

end Append

/-- A block writes what its body does. -/
theorem writtenAll_block (body : List (Item ν)) (st : Numbering ν) :
    writtenAll [block body] st = writtenAll body st := by
  rw [writtenAll, written, writtenAll]
  cases writtenAll body st <;> simp

/-! ### What the map holds -/

namespace Numbering

variable {st : Numbering ν} {v : ν} {i : ℕ}

/-- A number that is found is in the map. -/
theorem mem_of_get? (h : st.get? v = some i) : (v, i) ∈ st.map := by
  obtain ⟨p, hp, rfl⟩ := Option.map_eq_some_iff.mp h
  have hv : p.1 = v := by simpa using List.find?_some hp
  rw [← hv]
  exact List.mem_of_find?_eq_some hp

/-- A value has a number if it is in the domain. -/
theorem get?_isSome : (st.get? v).isSome ↔ v ∈ st.dom := by
  rw [get?, Option.isSome_map, List.find?_isSome, dom, List.mem_map]
  simp

/-- Every number in the map has been given out. -/
def Bounded (st : Numbering ν) : Prop := ∀ p ∈ st.map, p.2 < st.next

/-- Assigning the next number keeps the numbers below it. -/
theorem Bounded.assign (h : st.Bounded) (r : Option ν) : (st.assign r).Bounded := by
  intro p hp
  cases r with
  | none => exact Nat.lt_succ_of_lt (h p hp)
  | some v =>
    rcases List.mem_cons.mp hp with rfl | hp
    · exact Nat.lt_succ_self _
    · exact Nat.lt_succ_of_lt (h p (List.mem_filter.mp hp).1)

/-- One value more in the domain. -/
theorem mem_dom_assign {r : Option ν} : v ∈ (st.assign r).dom ↔ r = some v ∨ v ∈ st.dom := by
  cases r with
  | none => simp [Numbering.assign, dom]
  | some w =>
    simp only [Numbering.assign, dom, List.map_cons, List.mem_cons, List.mem_map, List.mem_filter,
      Option.some.injEq]
    constructor
    · rintro (rfl | ⟨p, ⟨hp, -⟩, rfl⟩)
      · exact Or.inl rfl
      · exact Or.inr ⟨p, hp, rfl⟩
    · rintro (rfl | ⟨p, hp, rfl⟩)
      · exact Or.inl rfl
      · by_cases hw : p.1 = w
        · exact Or.inl hw
        · exact Or.inr ⟨p, ⟨hp, by simpa using hw⟩, rfl⟩

end Numbering

/-- The next number never goes back: a definition takes one, and a block gives back what it took. -/
theorem Item.next_le_run : (s : Item ν) → (st : Numbering ν) → st.next ≤ (s.run st).next
  | define v, st => by
    cases v with
    | none => exact Nat.le_succ _
    | some v => exact Nat.le_succ _
  | use _, _ => Nat.le_refl _
  | block _, _ => Nat.le_refl _

mutual

/-- Every number is below the next one, behind an item. -/
theorem Item.bounded_run : (s : Item ν) → (st : Numbering ν) → st.Bounded → (s.run st).Bounded
  | define v, _, h => h.assign v
  | use _, _, h => h
  | block _, _, _ => fun _ hp => of_decide_eq_true (List.mem_filter.mp hp).2

/-- The same behind a list. -/
theorem bounded_runAll : (ss : List (Item ν)) → (st : Numbering ν) → st.Bounded →
    (runAll ss st).Bounded
  | [], _, h => h
  | s :: ss, st, h => bounded_runAll ss (s.run st) (s.bounded_run st h)

end

mutual

/-- Of the entries from before, those stay that the item does not define again. -/
theorem Item.mem_run : (s : Item ν) → (st : Numbering ν) → {v : ν} → {i : ℕ} → i < st.next →
    ((v, i) ∈ (s.run st).map ↔ (v, i) ∈ st.map ∧ v ∉ s.defines)
  | define none, st, v, i, _ => by simp [run, Numbering.assign, defines]
  | define (some w), st, v, i, hi => by
    simp only [run, Numbering.assign, defines, List.mem_cons, Prod.mk.injEq, List.mem_filter,
      Option.toList_some, List.not_mem_nil, or_false, ne_eq, decide_not, Bool.not_eq_true',
      decide_eq_false_iff_not]
    constructor
    · rintro (⟨-, rfl⟩ | h)
      · exact absurd hi (Nat.lt_irrefl _)
      · exact h
    · exact Or.inr
  | use _, st, v, i, _ => by simp [run, defines]
  | block body, st, v, i, hi => by
    rw [run, close, List.mem_filter, mem_runAll body st hi, defines]
    simp [hi]

/-- A list keeps the older numbers, of the values that it does not define. -/
theorem mem_runAll : (ss : List (Item ν)) → (st : Numbering ν) → {v : ν} → {i : ℕ} → i < st.next →
    ((v, i) ∈ (runAll ss st).map ↔ (v, i) ∈ st.map ∧ v ∉ definesAll ss)
  | [], st, v, i, _ => by simp [runAll, definesAll]
  | s :: ss, st, v, i, hi => by
    rw [runAll, mem_runAll ss (s.run st) (Nat.lt_of_lt_of_le hi (s.next_le_run st)),
      s.mem_run st hi,
      definesAll, List.mem_append, not_or, and_assoc]

end

/-- **After a block the map holds what it held before, but for the names the block defines.** -/
theorem mem_dom_run_block {body : List (Item ν)} {st : Numbering ν} {v : ν} (h : st.Bounded) :
    v ∈ ((block body).run st).dom ↔ v ∈ st.dom ∧ v ∉ definesAll body := by
  rw [dom, dom, List.mem_map, List.mem_map]
  constructor
  · rintro ⟨⟨w, i⟩, hp, rfl⟩
    have hi : i < st.next := by simpa using (List.mem_filter.mp hp).2
    obtain ⟨hmem, hdef⟩ := ((block body).mem_run st hi).mp hp
    exact ⟨⟨(w, i), hmem, rfl⟩, hdef⟩
  · rintro ⟨⟨⟨w, i⟩, hp, rfl⟩, hdef⟩
    exact ⟨(w, i), ((block body).mem_run st (h _ hp)).mpr ⟨hp, hdef⟩, rfl⟩

mutual

/-- A value of the domain was there or is defined. -/
theorem Item.mem_dom_run : (s : Item ν) → (st : Numbering ν) → {v : ν} → v ∈ (s.run st).dom →
    v ∈ st.dom ∨ v ∈ s.defines
  | define r, st, v, h => by
    rcases mem_dom_assign.mp h with hr | h
    · exact Or.inr (by simp [defines, hr])
    · exact Or.inl h
  | use _, _, _, h => Or.inl h
  | block body, st, v, h => by
    obtain ⟨p, hp, rfl⟩ := List.mem_map.mp h
    exact mem_dom_runAll body st (List.mem_map_of_mem (List.mem_filter.mp hp).1)

/-- Nothing is in the map that was not there before and is not defined. -/
theorem mem_dom_runAll : (ss : List (Item ν)) → (st : Numbering ν) → {v : ν} →
    v ∈ (runAll ss st).dom → v ∈ st.dom ∨ v ∈ definesAll ss
  | [], _, _, h => Or.inl h
  | s :: ss, st, v, h => by
    rw [definesAll, List.mem_append]
    rcases mem_dom_runAll ss (s.run st) h with h | h
    · rcases s.mem_dom_run st h with h | h
      · exact Or.inl h
      · exact Or.inr (Or.inl h)
    · exact Or.inr (Or.inr h)

end

mutual

/-- What is written can only use what is in the map or defined on the way. -/
theorem Item.uses_of_written : (s : Item ν) → (st : Numbering ν) → {ns : List ℕ} →
    s.written st = some ns → ∀ v ∈ s.uses, v ∈ st.dom ∨ v ∈ s.defines
  | define _, _, _, _ => fun _ hv => absurd hv List.not_mem_nil
  | use w, st, ns, h => by
    intro v hv
    obtain rfl := List.mem_singleton.mp hv
    refine Or.inl (get?_isSome.mp ?_)
    obtain ⟨i, hi, -⟩ := Option.map_eq_some_iff.mp h
    rw [hi]
    rfl
  | block body, st, _, h => uses_of_writtenAll body st h

/-- What a list writes uses values that are there or defined before. -/
theorem uses_of_writtenAll : (ss : List (Item ν)) → (st : Numbering ν) → {ns : List ℕ} →
    writtenAll ss st = some ns → ∀ v ∈ usesAll ss, v ∈ st.dom ∨ v ∈ definesAll ss
  | [], _, _, _ => fun _ hv => absurd hv List.not_mem_nil
  | s :: ss, st, ns, h => by
    intro v hv
    obtain ⟨ks, hk, h⟩ := Option.bind_eq_some_iff.mp h
    obtain ⟨ms, hm, -⟩ := Option.map_eq_some_iff.mp h
    rw [definesAll, List.mem_append]
    rcases List.mem_append.mp hv with hv | hv
    · rcases s.uses_of_written st hk v hv with h | h
      · exact Or.inl h
      · exact Or.inr (Or.inl h)
    · rcases uses_of_writtenAll ss (s.run st) hm v hv with h | h
      · rcases s.mem_dom_run st h with h | h
        · exact Or.inl h
        · exact Or.inr (Or.inl h)
      · exact Or.inr (Or.inr h)

end

/-! ### Writer and reader -/

namespace Numbering

/-- Every number in the map is the one the reader gives. -/
def Agrees (st : Numbering ν) (vs : List (Option ν)) : Prop :=
  st.next = vs.length ∧ ∀ p ∈ st.map, numberOf p.1 vs = some p.2

variable {st : Numbering ν} {vs : List (Option ν)}

/-- An empty map agrees with no positions. -/
theorem agrees_empty : Agrees (⟨[], 0⟩ : Numbering ν) [] :=
  ⟨rfl, fun _ hp => absurd hp List.not_mem_nil⟩

/-- One more assignment, one more position. -/
theorem Agrees.assign (h : st.Agrees vs) (r : Option ν) : (st.assign r).Agrees (vs ++ [r]) := by
  obtain ⟨hnext, hmap⟩ := h
  cases r with
  | none =>
    refine ⟨by rw [List.length_append, ← hnext]; rfl, fun p hp => ?_⟩
    rw [numberOf_append_singleton, if_neg (Option.some_ne_none _).symm]
    exact hmap p hp
  | some v =>
    refine ⟨by rw [List.length_append, ← hnext]; rfl, fun p hp => ?_⟩
    rw [numberOf_append_singleton]
    rcases List.mem_cons.mp hp with rfl | hp
    · rw [if_pos rfl, hnext]
    · obtain ⟨hp, hne⟩ := List.mem_filter.mp hp
      have hne : p.1 ≠ v := by simpa using hne
      rw [if_neg fun h => hne (Option.some.inj h).symm]
      exact hmap p hp

end Numbering

mutual

/-- The map behind an item agrees with the positions behind it. -/
theorem Item.agrees_run : (s : Item ν) → {st : Numbering ν} → {vs : List (Option ν)} →
    st.Agrees vs → (s.run st).Agrees (s.live vs)
  | define r, _, _, h => h.assign r
  | use _, _, _, h => h
  | block body, st, vs, h => by
    obtain ⟨-, hmap⟩ := agrees_runAll body h
    have hlen := length_liveAll body vs
    refine ⟨?_, fun p hp => ?_⟩
    · show st.next = _
      rw [live, List.length_take, h.1]
      omega
    · obtain ⟨hp, hlt⟩ := List.mem_filter.mp hp
      rw [live, ← h.1]
      exact numberOf_take (hmap p hp) (of_decide_eq_true hlt)

/-- The same behind a list. -/
theorem agrees_runAll : (ss : List (Item ν)) → {st : Numbering ν} → {vs : List (Option ν)} →
    st.Agrees vs → (runAll ss st).Agrees (liveAll ss vs)
  | [], _, _, h => h
  | s :: ss, _, _, h => agrees_runAll ss (s.agrees_run h)

end

mutual

/-- What an item writes are the numbers of its uses. -/
theorem Item.written_agrees : (s : Item ν) → {st : Numbering ν} → {vs : List (Option ν)} →
    {ns : List ℕ} → st.Agrees vs → s.written st = some ns → s.numbers vs = ns.map some
  | define _, _, _, _, _, h => by
    obtain rfl := Option.some.inj h
    rfl
  | use v, st, vs, ns, hagree, h => by
    obtain ⟨i, hi, rfl⟩ := Option.map_eq_some_iff.mp h
    have hnum := hagree.2 _ (mem_of_get? hi)
    rw [numbers, hnum]
    rfl
  | block body, _, _, _, hagree, h => writtenAll_agrees body hagree h

/-- **The numbers the writer finds are those the reader gives.** -/
theorem writtenAll_agrees : (ss : List (Item ν)) → {st : Numbering ν} → {vs : List (Option ν)} →
    {ns : List ℕ} → st.Agrees vs → writtenAll ss st = some ns → numbersAll ss vs = ns.map some
  | [], _, _, _, _, h => by
    obtain rfl := Option.some.inj h
    rfl
  | s :: ss, st, vs, ns, hagree, h => by
    obtain ⟨ks, hk, h⟩ := Option.bind_eq_some_iff.mp h
    obtain ⟨ms, hm, rfl⟩ := Option.map_eq_some_iff.mp h
    rw [numbersAll, s.written_agrees hagree hk, writtenAll_agrees ss (s.agrees_run hagree) hm,
      List.map_append]

end

/-! ### Early and late definitions -/

/-- Streams of blocks. -/
def OnlyBlocks (ss : List (Item ν)) : Prop := ∀ s ∈ ss, ∃ body, s = block body

/-- A list of blocks leaves of the domain what it does not define. -/
theorem OnlyBlocks.mem_dom {ss : List (Item ν)} (hs : OnlyBlocks ss) {st : Numbering ν} {v : ν}
    (h : st.Bounded) : v ∈ (runAll ss st).dom ↔ v ∈ st.dom ∧ v ∉ definesAll ss := by
  induction ss generalizing st with
  | nil => simp [runAll, definesAll]
  | cons s ss ih =>
    obtain ⟨body, rfl⟩ := hs s List.mem_cons_self
    rw [runAll, ih (fun t ht => hs t (List.mem_cons_of_mem _ ht)) (Item.bounded_run _ st h),
      mem_dom_run_block h, definesAll, List.mem_append, not_or, defines, and_assoc]

/-- Every name of the first map is in the second one, but for those in `late`. -/
def Within (st st' : Numbering ν) (late : List ν) : Prop := ∀ v ∈ st.dom, v ∈ st'.dom ∨ v ∈ late

/-- Where every use of the first stream has a number, every use of the second one has, if it is not
of a name that the second one has still to define. -/
def Admits (ss ts : List (Item ν)) : Prop :=
  ∀ (st st' : Numbering ν) (late : List ν), st.Bounded → st'.Bounded → Within st st' late →
    (writtenAll ss st).isSome → (∀ v ∈ usesAll ts, v ∉ late) →
    (writtenAll ts st').isSome ∧ Within (runAll ss st) (runAll ts st') late

section Admits

variable {ss ss' ts ts' : List (Item ν)}

/-- Nothing, on both sides. -/
theorem Admits.nil : Admits ([] : List (Item ν)) [] := fun _ _ _ _ _ hin _ _ => ⟨rfl, hin⟩

/-- One behind the other. -/
theorem Admits.append (h : Admits ss ts) (h' : Admits ss' ts') :
    Admits (ss ++ ss') (ts ++ ts') := by
  intro st st' late hb hb' hin hw hlate
  rw [usesAll_append] at hlate
  obtain ⟨hw, hw'⟩ := isSome_writtenAll_append.mp hw
  obtain ⟨hres, hin⟩ := h st st' late hb hb' hin hw fun v hv => hlate v (List.mem_append_left _ hv)
  obtain ⟨hres', hin⟩ := h' _ _ late (bounded_runAll ss st hb) (bounded_runAll ts st' hb') hin hw'
    fun v hv => hlate v (List.mem_append_right _ hv)
  rw [isSome_writtenAll_append, runAll_append, runAll_append]
  exact ⟨⟨hres, hres'⟩, hin⟩

/-- The same definition. -/
theorem Admits.define (r : Option ν) : Admits [Item.define r] [Item.define r] := by
  intro st st' late _ _ hin _ _
  refine ⟨rfl, fun v hv => ?_⟩
  rcases mem_dom_assign.mp hv with hr | hv
  · exact Or.inl (mem_dom_assign.mpr (Or.inl hr))
  · exact (hin v hv).imp_left fun h => mem_dom_assign.mpr (Or.inr h)

/-- The same definitions. -/
theorem Admits.defines (rs : List (Option ν)) :
    Admits (rs.map Item.define) (rs.map Item.define) := by
  induction rs with
  | nil => exact Admits.nil
  | cons r rs ih => exact (Admits.define r).append ih

/-- A block around each, if the second one defines no more. -/
theorem Admits.block (h : Admits ss ts) (hdef : ∀ v ∈ definesAll ts, v ∈ definesAll ss) :
    Admits [block ss] [block ts] := by
  intro st st' late hb hb' hin hw hlate
  rw [writtenAll_block] at hw ⊢
  rw [usesAll_block] at hlate
  refine ⟨(h st st' late hb hb' hin hw hlate).1, fun v hv => ?_⟩
  obtain ⟨hv, hnot⟩ := (mem_dom_run_block hb).mp hv
  exact (hin v hv).imp_left fun h' => (mem_dom_run_block hb').mpr ⟨h', fun h => hnot (hdef v h)⟩

/-- Blocks that only the first stream has. -/
theorem Admits.skip (hs : OnlyBlocks ss) : Admits ss [] := by
  intro st st' late hb _ hin _ _
  exact ⟨rfl, fun v hv => hin v ((hs.mem_dom hb).mp hv).1⟩

/-- **Definitions may be checked before the blocks in which they are not used.** -/
theorem Admits.node {us vs rs : List ν} (hus : ∀ v ∈ vs, v ∈ us) (h : Admits ss ts)
    (hs : OnlyBlocks ss) (ht : OnlyBlocks ts) (hdef : ∀ v ∈ definesAll ts, v ∈ definesAll ss)
    (hown : ∀ v ∈ usesAll ts, v ∉ rs) :
    Admits (us.map use ++ (rs.map fun r => Item.define (some r)) ++ ss)
      (vs.map use ++ ts ++ rs.map fun r => Item.define (some r)) := by
  intro st st' late hb hb' hin hw hlate
  simp only [usesAll_append, usesAll_uses, usesAll_values, List.append_nil,
    List.mem_append] at hlate
  have hmap : (rs.map fun r => Item.define (some r)) = (rs.map some).map Item.define := by
    rw [List.map_map]
    rfl
  rw [hmap] at hw ⊢
  simp only [isSome_writtenAll_append, runAll_append, runAll_uses, writtenAll_defines,
    isSome_writtenAll_uses] at hw ⊢
  obtain ⟨⟨huse, -⟩, hblocks⟩ := hw
  have hdom {st : Numbering ν} {v : ν} :
      v ∈ (runAll ((rs.map some).map Item.define) st).dom ↔ v ∈ rs ∨ v ∈ st.dom := by
    rw [runAll_defines]
    clear hown hlate hmap huse hblocks
    induction rs generalizing st with
    | nil => simp
    | cons r rs ih =>
      rw [List.map_cons, List.foldl_cons, ih, mem_dom_assign, List.mem_cons, Option.some.injEq,
        eq_comm]
      tauto
  -- in the blocks the names `rs` are defined for the first stream only
  have hin' : Within (runAll ((rs.map some).map Item.define) st) st' (late ++ rs) := by
    intro v hv
    rw [List.mem_append]
    rcases hdom.mp hv with hv | hv
    · exact Or.inr (Or.inr hv)
    · exact (hin v hv).imp_right Or.inl
  obtain ⟨hres, -⟩ := h _ _ _ (bounded_runAll _ st hb) hb' hin' hblocks fun v hv hmem =>
    (List.mem_append.mp hmem).elim (hlate v (Or.inr hv)) (hown v hv)
  refine ⟨⟨⟨fun v hv => ?_, hres⟩, rfl⟩, fun v hv => ?_⟩
  · have hv' := get?_isSome.mp (huse v (hus v hv))
    exact get?_isSome.mpr ((hin v hv').resolve_right (hlate v (Or.inl hv)))
  · obtain ⟨hv, hnot⟩ := (hs.mem_dom (bounded_runAll _ st hb)).mp hv
    rcases hdom.mp hv with hv | hv
    · exact Or.inl (hdom.mpr (Or.inl hv))
    · refine (hin v hv).imp_left fun h' => hdom.mpr (Or.inr ?_)
      exact (ht.mem_dom hb').mpr ⟨h', fun hd => hnot (hdef v hd)⟩

end Admits

/-- A stream defines each name once, and none that is in the map. -/
structure Fresh (ss : List (Item ν)) (st : Numbering ν) : Prop where
  nodup : (definesAll ss).Nodup
  disjoint : ∀ v ∈ st.dom, v ∉ definesAll ss

section Fresh

variable {ss ts : List (Item ν)} {st : Numbering ν}

omit [DecidableEq ν] in

/-- The first part of a fresh list. -/
theorem Fresh.left (h : Fresh (ss ++ ts) st) : Fresh ss st where
  nodup := by
    have := h.nodup
    rw [definesAll_append] at this
    exact (List.nodup_append.mp this).1
  disjoint v hv hmem := h.disjoint v hv (by
    rw [definesAll_append]
    exact List.mem_append_left _ hmem)

/-- The second part, behind the first. -/
theorem Fresh.right (h : Fresh (ss ++ ts) st) : Fresh ts (runAll ss st) where
  nodup := by
    have := h.nodup
    rw [definesAll_append] at this
    exact (List.nodup_append.mp this).2.1
  disjoint v hv hmem := by
    have hnodup := h.nodup
    rw [definesAll_append] at hnodup
    rcases mem_dom_runAll ss st hv with hv | hv
    · exact h.disjoint v hv (by
        rw [definesAll_append]
        exact List.mem_append_right _ hmem)
    · exact (List.nodup_append.mp hnodup).2.2 v hv v hmem rfl

end Fresh

/-- A stream with fresh names is written. -/
structure Writable (ss : List (Item ν)) (st : Numbering ν) : Prop extends Fresh ss st where
  written : (writtenAll ss st).isSome

section Writable

variable {ss ts : List (Item ν)} {st : Numbering ν}

/-- The first part of a list that can be written. -/
theorem Writable.left (h : Writable (ss ++ ts) st) : Writable ss st :=
  ⟨h.toFresh.left, (isSome_writtenAll_append.mp h.written).1⟩

/-- The second part, behind the first. -/
theorem Writable.right (h : Writable (ss ++ ts) st) : Writable ts (runAll ss st) :=
  ⟨h.toFresh.right, (isSome_writtenAll_append.mp h.written).2⟩

/-- The body of a block. -/
theorem Writable.body (h : Writable [block ss] st) : Writable ss st := by
  refine ⟨⟨?_, ?_⟩, ?_⟩
  · rw [← definesAll_block]
    exact h.nodup
  · rw [← definesAll_block]
    exact h.disjoint
  · rw [← writtenAll_block]
    exact h.written

/-- What is written does not use what is only defined afterwards. -/
theorem Writable.not_mem_uses (h : Writable (ss ++ ts) st) :
    ∀ v ∈ usesAll ss, v ∉ definesAll ts := by
  intro v hv hmem
  obtain ⟨ns, hns⟩ := Option.isSome_iff_exists.mp h.left.written
  have hnodup := h.nodup
  rw [definesAll_append] at hnodup
  rcases uses_of_writtenAll ss st hns v hv with hv | hv
  · exact h.disjoint v hv (by
      rw [definesAll_append]
      exact List.mem_append_right _ hmem)
  · exact (List.nodup_append.mp hnodup).2.2 v hv v hmem rfl

end Writable

end CudaOxide.Lib.Scoping
