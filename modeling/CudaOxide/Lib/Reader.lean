import CudaOxide.Lib.Bytes

/-!
# Readers

A reader moves a cursor over a buffer.  It returns a value or an error, and in both cases the cursor
stands behind what it has read; or it aborts.

* `Read φ ε` — the monad of readers that abort with a `φ` and return errors `ε`.
* `Consumes pos bs x a` — wherever `bs` stands at `pos`, `x` returns `a` and moves behind `bs`.  The
  rules `Consumes.bind`, `Consumes.times`, … follow the syntax of a reader.
* `Finishes front rest x a` — behind `front`, `x` makes `a` of `rest`, whatever it leaves unread.
  `Consumes.behind_bind` steps from a reader to the rest of it.
-/

namespace CudaOxide.Lib

open Bytes

/-- A position in a buffer. -/
structure Cursor where
  data : Bytes
  pos : ℕ

/-- The cursor `n` bytes on. -/
def Cursor.advance (r : Cursor) (n : ℕ) : Cursor := { r with pos := r.pos + n }

@[simp] theorem Cursor.advance_data (r : Cursor) (n : ℕ) : (r.advance n).data = r.data := rfl
@[simp] theorem Cursor.advance_pos (r : Cursor) (n : ℕ) : (r.advance n).pos = r.pos + n := rfl

@[simp] theorem Cursor.advance_zero (r : Cursor) : r.advance 0 = r := rfl

/-- Two moves are one. -/
theorem Cursor.advance_advance (r : Cursor) (n n' : ℕ) :
    (r.advance n).advance n' = r.advance (n + n') := by
  simp only [advance, Nat.add_assoc]

/-- The size of an address space is no bound on a list, but it is one on a buffer. -/
def Cursor.InMemory (r : Cursor) : Prop := r.data.length < 2 ^ 63

/-- A read ends in a panic, in an error or in a value, and moves the cursor. -/
def Read (φ ε α : Type) := Cursor → Except φ (Except ε α × Cursor)

variable {φ ε α β : Type}

namespace Read

instance : Monad (Read φ ε) where
  pure a := fun r => .ok (.ok a, r)
  bind x f := fun r =>
    match x r with
    | .ok (.ok a, r') => f a r'
    | .ok (.error e, r') => .ok (.error e, r')
    | .error p => .error p

/-- Return an error. -/
def fail (e : ε) : Read φ ε α := fun r => .ok (.error e, r)

/-- End in a panic. -/
def abort (p : φ) : Read φ ε α := fun _ => .error p

/-- The cursor as it stands. -/
def cursor : Read φ ε Cursor := fun r => .ok (.ok r, r)

/-- A value in place of an error (`unwrap_or`). -/
def orElse (x : Read φ ε α) (a : α) : Read φ ε α := fun r =>
  match x r with
  | .ok (.error _, r') => .ok (.ok a, r')
  | out => out

/-- Read `n` times. -/
def times (x : Read φ ε α) : ℕ → Read φ ε (List α)
  | 0 => pure []
  | n + 1 => do
    let a ← x
    let as ← x.times n
    return a :: as

/-- Read a buffer of its own, and leave the cursor where it is. -/
def within (data : Bytes) (x : Read φ ε α) : Read φ ε α := fun r =>
  match x ⟨data, 0⟩ with
  | .ok out => .ok (out.1, r)
  | .error p => .error p

/-- The result of a reader that needs no buffer of its own. -/
def run (x : Read φ ε α) : Except φ (Except ε α) :=
  match x ⟨[], 0⟩ with
  | .ok out => .ok out.1
  | .error p => .error p

/-- A read that is followed by another one. -/
theorem bind_eq_ok {x : Read φ ε α} {f : α → Read φ ε β} {b : β} {r r' : Cursor} :
    (x >>= f) r = .ok (.ok b, r') ↔ ∃ a r₁, x r = .ok (.ok a, r₁) ∧ f a r₁ = .ok (.ok b, r') := by
  cases hx : x r with
  | error p => simp [Bind.bind, hx]
  | ok out =>
    obtain ⟨res, r₁⟩ := out
    cases res with
    | error e => simp [Bind.bind, hx]
    | ok a => simp [Bind.bind, hx]

/-- A read of nothing. -/
theorem run_eq_ok {x : Read φ ε α} {a : α} :
    x.run = .ok (.ok a) ↔ ∃ r, x ⟨[], 0⟩ = .ok (.ok a, r) := by
  unfold run
  cases hx : x ⟨[], 0⟩ with
  | error p => simp
  | ok out =>
    obtain ⟨res, r⟩ := out
    simp

/-- A read within a part leaves the cursor where it is. -/
theorem within_eq_ok {data : Bytes} {x : Read φ ε α} {a : α} {r r' : Cursor} :
    within data x r = .ok (.ok a, r') ↔ r' = r ∧ ∃ r₁, x ⟨data, 0⟩ = .ok (.ok a, r₁) := by
  unfold within
  cases hx : x ⟨data, 0⟩ with
  | error p => simp
  | ok out =>
    obtain ⟨res, r₁⟩ := out
    simp [eq_comm, and_comm]

end Read

/-! ### What a reader reads -/

/-- Where `bs` stands at `pos`, the reader returns `a` and moves behind `bs`. -/
def Consumes (pos : ℕ) (bs : Bytes) (x : Read φ ε α) (a : α) : Prop :=
  ∀ r : Cursor, r.InMemory → r.pos = pos → r.pos + bs.length ≤ r.data.length →
    Holds r.data r.pos bs → x r = .ok (.ok a, r.advance bs.length)

namespace Consumes

variable {pos : ℕ} {bs bs' : Bytes} {x : Read φ ε α} {f : α → Read φ ε β} {a : α} {b : β}

/-- A value without reading. -/
theorem pure : Consumes pos [] (pure a : Read φ ε α) a := fun _ _ _ _ _ => rfl

/-- Two reads take the bytes of both. -/
theorem bind (hx : Consumes pos bs x a) (hf : Consumes (pos + bs.length) bs' (f a) b) :
    Consumes pos (bs ++ bs') (x >>= f) b := by
  intro r hr hpos hlen hbs
  obtain ⟨hleft, hright⟩ := holds_append.mp hbs
  rw [List.length_append] at hlen
  have hfirst : x r = .ok (.ok a, r.advance bs.length) := hx r hr hpos (by omega) hleft
  have hrest := hf (r.advance bs.length) hr (by rw [Cursor.advance_pos, hpos])
    (by rw [Cursor.advance_pos, Cursor.advance_data]; omega) hright
  rw [Cursor.advance_advance, ← List.length_append] at hrest
  simpa only [Bind.bind, hfirst] using hrest

/-- A last step that reads nothing. -/
theorem last (hx : Consumes pos bs x a) (hf : Consumes (pos + bs.length) [] (f a) b) :
    Consumes pos bs (x >>= f) b := by
  have h := hx.bind hf
  rwa [List.append_nil] at h

/-- A value that is computed from one that was read. -/
theorem map {g : α → β} (hx : Consumes pos bs x a) :
    Consumes pos bs (do return g (← x)) (g a) := hx.last pure

/-- A first step that reads nothing. -/
theorem seq (hx : Consumes pos [] x a) (hf : Consumes pos bs (f a) b) :
    Consumes pos bs (x >>= f) b := hx.bind hf

/-- What is consumed is in memory. -/
theorem of_length (hx : bs.length < 2 ^ 63 → Consumes pos bs x a) : Consumes pos bs x a := by
  intro r hr hpos hlen hbs
  exact hx (by unfold Cursor.InMemory at hr; omega) r hr hpos hlen hbs

/-- What takes no bytes can be run on none. -/
theorem run (hx : Consumes 0 [] x a) : x.run = .ok (.ok a) := by
  apply Read.run_eq_ok.mpr
  exact ⟨_, hx ⟨[], 0⟩ (Nat.two_pow_pos 63) rfl (Nat.le_refl _) fun k hk =>
    absurd hk (Nat.not_lt_zero k)⟩

/-- A read that succeeds needs no default. -/
theorem orElse (d : α) (hx : Consumes pos bs x a) : Consumes pos bs (x.orElse d) a := by
  intro r hr hpos hlen hbs
  simp only [Read.orElse, hx r hr hpos hlen hbs]

/-- A read that is repeated takes the bytes of each round. -/
theorem times {enc : α → Bytes} {as : List α} (hx : ∀ a ∈ as, ∀ pos, Consumes pos (enc a) x a) :
    Consumes pos (as.flatMap enc) (x.times as.length) as := by
  induction as generalizing pos with
  | nil => exact pure
  | cons a as ih =>
    rw [List.flatMap_cons]
    apply (hx a List.mem_cons_self pos).bind
    exact (ih fun a ha => hx a (List.mem_cons_of_mem _ ha)).map

end Consumes

/-- The run of a reader from the end of `front` on. -/
def Read.behind (x : Read φ ε α) (front rest : Bytes) : Except φ (Except ε α × Cursor) :=
  x ⟨front ++ rest, front.length⟩

/-- Behind `front`, the reader makes `a` of the rest. -/
def Finishes (front rest : Bytes) (x : Read φ ε α) (a : α) : Prop :=
  ∃ r, x.behind front rest = .ok (.ok a, r)

section

variable {front bs rest : Bytes} {x : Read φ ε α} {f : α → Read φ ε β} {a : α} {b : β}

/-- A read behind other bytes. -/
theorem Consumes.behind (hmem : (front ++ (bs ++ rest)).length < 2 ^ 63)
    (hx : Consumes front.length bs x a) : x.behind front (bs ++ rest) =
      .ok (.ok a, ⟨front ++ bs ++ rest, (front ++ bs).length⟩) := by
  have hbs : Holds (front ++ (bs ++ rest)) front.length bs := (holds_append.mp holds_append_self).1
  have hrun := hx ⟨front ++ (bs ++ rest), front.length⟩ hmem rfl
    (by simp only [List.length_append]; omega) hbs
  rw [List.append_assoc, List.length_append]
  exact hrun

/-- The rest of a reader starts where its first step has stopped. -/
theorem Consumes.behind_bind (hmem : (front ++ (bs ++ rest)).length < 2 ^ 63)
    (hx : Consumes front.length bs x a) :
    (x >>= f).behind front (bs ++ rest) = (f a).behind (front ++ bs) rest := by
  have hrun := hx.behind hmem
  simp only [Read.behind] at hrun ⊢
  simp only [Bind.bind, hrun]

/-- Nothing more to read. -/
theorem Finishes.pure : Finishes front rest (pure a : Read φ ε α) a := ⟨_, rfl⟩

/-- A read and what follows it. -/
theorem Finishes.bind (hmem : (front ++ (bs ++ rest)).length < 2 ^ 63)
    (hx : Consumes front.length bs x a) (hf : Finishes (front ++ bs) rest (f a) b) :
    Finishes front (bs ++ rest) (x >>= f) b := by
  obtain ⟨r, hf⟩ := hf
  exact ⟨r, (hx.behind_bind hmem).trans hf⟩

/-- A read that takes all bytes that are left. -/
theorem Consumes.finishes (hmem : (front ++ bs).length < 2 ^ 63)
    (hx : Consumes front.length bs x a) : Finishes front bs x a := by
  rw [← List.append_nil bs] at hmem ⊢
  exact ⟨_, hx.behind hmem⟩

/-- A read of a part that takes all of it. -/
theorem Finishes.within {data : Bytes} {pos : ℕ} (hx : Finishes [] data x a) :
    Consumes pos [] (Read.within data x) a := by
  obtain ⟨r', hrun⟩ := hx
  intro r _ _ _ _
  have hrun : x ⟨data, 0⟩ = .ok (.ok a, r') := hrun
  simp only [Read.within, hrun]
  rfl

end

end CudaOxide.Lib
