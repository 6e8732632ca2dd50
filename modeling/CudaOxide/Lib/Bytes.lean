import CudaOxide.Lib.Safe

/-!
# Byte buffers

Formats that are written back to front (a length is filled in once the bytes it counts are there)
are read off by what stands where: `Holds buf off data` says that `data` stands at `off`.

* `Keeps lo hi buf buf'` — a step that grows the buffer or writes between `lo` and `hi`; what
  stands elsewhere stays (`Holds.keeps`), and `holds_overwrite` is what stands there after.
* `leBytes`, `ofLeBytes` — little-endian numbers.
* `Usize` — the machine's index arithmetic.
-/

namespace CudaOxide.Lib

variable {ε : Type}

/-- A string of bytes. -/
abbrev Bytes := List UInt8

/-! ### Index arithmetic -/

namespace Usize

/-- `a + b`, `a - b` and `a * b` on `usize`, which panic on overflow. -/
def add (a b : ℕ) : Run ε ℕ := if a + b < 2 ^ 64 then .ok (a + b) else Run.panic .overflow

/-- `a - b` on `usize` -/
def sub (a b : ℕ) : Run ε ℕ := if b ≤ a then .ok (a - b) else Run.panic .overflow

/-- `a * b` on `usize` -/
def mul (a b : ℕ) : Run ε ℕ := if a * b < 2 ^ 64 then .ok (a * b) else Run.panic .overflow

/-- `a / b` on `usize` -/
def div (a b : ℕ) : Run ε ℕ := if b = 0 then Run.panic .divisionByZero else .ok (a / b)

/-- `a % b` on `usize` -/
def rem (a b : ℕ) : Run ε ℕ := if b = 0 then Run.panic .divisionByZero else .ok (a % b)

/-- `checked_add` -/
def checkedAdd (a b : ℕ) : Option ℕ := if a + b < 2 ^ 64 then some (a + b) else none

/-- `checked_mul` -/
def checkedMul (a b : ℕ) : Option ℕ := if a * b < 2 ^ 64 then some (a * b) else none

variable {a b c : ℕ}

/-- A sum is returned where it fits. -/
@[simp] theorem add_eq_ok : (add a b : Run ε ℕ) = .ok c ↔ a + b < 2 ^ 64 ∧ a + b = c := by
  unfold add
  split
  · simp_all
  · simp_all

/-- A difference is returned where it is not negative. -/
@[simp] theorem sub_eq_ok : (sub a b : Run ε ℕ) = .ok c ↔ b ≤ a ∧ a - b = c := by
  unfold sub
  split
  · simp_all
  · simp_all

/-- A product is returned where it fits. -/
@[simp] theorem mul_eq_ok : (mul a b : Run ε ℕ) = .ok c ↔ a * b < 2 ^ 64 ∧ a * b = c := by
  unfold mul
  split
  · simp_all
  · simp_all

/-- A checked sum is one that fits. -/
@[simp] theorem checkedAdd_eq_some : checkedAdd a b = some c ↔ a + b < 2 ^ 64 ∧ a + b = c := by
  unfold checkedAdd
  split
  · simp_all
  · simp_all

/-- A checked product is one that fits. -/
@[simp] theorem checkedMul_eq_some : checkedMul a b = some c ↔ a * b < 2 ^ 64 ∧ a * b = c := by
  unfold checkedMul
  split
  · simp_all
  · simp_all

/-- Sums and products that fit do not panic. -/
theorem add_safe (h : a + b < 2 ^ 64) : (add a b : Run ε ℕ).Safe := by
  rw [add_eq_ok.mpr ⟨h, rfl⟩]
  exact .ok _

/-- A product that fits does not panic. -/
theorem mul_safe (h : a * b < 2 ^ 64) : (mul a b : Run ε ℕ).Safe := by
  rw [mul_eq_ok.mpr ⟨h, rfl⟩]
  exact .ok _

theorem div_eq_ok (hb : 0 < b) : (div a b : Run ε ℕ) = .ok (a / b) := if_neg hb.ne'

theorem rem_eq_ok (hb : 0 < b) : (rem a b : Run ε ℕ) = .ok (a % b) := if_neg hb.ne'

end Usize

namespace Bytes

/-! ### Little-endian numbers -/

/-- The `k` low bytes of `v`, lowest first (`to_le_bytes`). -/
def leBytes : ℕ → ℕ → Bytes
  | 0, _ => []
  | k + 1, v => .ofNat v :: leBytes k (v / 256)

/-- `from_le_bytes` -/
def ofLeBytes : Bytes → ℕ
  | [] => 0
  | b :: bs => b.toNat + 256 * ofLeBytes bs

@[simp] theorem length_leBytes (k v : ℕ) : (leBytes k v).length = k := by
  induction k generalizing v with
  | zero => rfl
  | succ k ih => rw [leBytes, List.length_cons, ih]

/-- A number that fits is read back from its bytes. -/
theorem ofLeBytes_leBytes {k v : ℕ} (hv : v < 256 ^ k) : ofLeBytes (leBytes k v) = v := by
  induction k generalizing v with
  | zero =>
    rw [pow_zero, Nat.lt_one_iff] at hv
    rw [hv]
    rfl
  | succ k ih =>
    have hlt : v / 256 < 256 ^ k := Nat.div_lt_of_lt_mul (by rwa [← pow_succ'])
    rw [leBytes, ofLeBytes, ih hlt, UInt8.toNat_ofNat']
    exact Nat.mod_add_div v 256

/-- What is read from bytes fits in them. -/
theorem ofLeBytes_lt (bs : Bytes) : ofLeBytes bs < 256 ^ bs.length := by
  induction bs with
  | nil => exact Nat.one_pos
  | cons b bs ih =>
    have hb := b.toNat_lt
    rw [ofLeBytes, List.length_cons, pow_succ]
    omega

/-- Bytes are those of the number they spell. -/
theorem leBytes_ofLeBytes (bs : Bytes) : leBytes bs.length (ofLeBytes bs) = bs := by
  induction bs with
  | nil => rfl
  | cons b bs ih =>
    have hb := b.toNat_lt
    have hdiv : (b.toNat + 256 * ofLeBytes bs) / 256 = ofLeBytes bs := by omega
    have hlow : UInt8.ofNat (b.toNat + 256 * ofLeBytes bs) = b := by
      apply UInt8.toNat_inj.mp
      rw [UInt8.toNat_ofNat']
      omega
    rw [ofLeBytes, List.length_cons, leBytes, hdiv, hlow, ih]

/-- Different numbers have different bytes. -/
theorem leBytes_inj {k v w : ℕ} (hv : v < 256 ^ k) (hw : w < 256 ^ k)
    (h : leBytes k v = leBytes k w) :
    v = w := by
  rw [← ofLeBytes_leBytes hv, h, ofLeBytes_leBytes hw]

/-! ### What stands where -/

/-- `data` stands in `buf` at offset `off`. -/
def Holds (buf : Bytes) (off : ℕ) (data : Bytes) : Prop :=
  ∀ k < data.length, buf[off + k]? = data[k]?

/-- The `len` bytes from `off` on. -/
def slice (buf : Bytes) (off len : ℕ) : Bytes := (buf.drop off).take len

/-- `buf` with `data` written over the bytes from `off` on. -/
def overwrite (buf : Bytes) (off : ℕ) (data : Bytes) : Bytes :=
  buf.take off ++ data ++ buf.drop (off + data.length)

variable {buf data more : Bytes} {off off' : ℕ}

/-- What a buffer holds ends inside it. -/
theorem Holds.le_length (h : Holds buf off data) (hne : data ≠ []) :
    off + data.length ≤ buf.length := by
  have hpos := List.length_pos_iff.mpr hne
  have hlast := h (data.length - 1) (by omega)
  rw [List.getElem?_eq_getElem (by omega : data.length - 1 < data.length)] at hlast
  have := (List.getElem?_eq_some_iff.mp hlast).1
  omega

/-- Data that is appended is held at the old end. -/
theorem holds_append_self : Holds (buf ++ data) buf.length data := by
  intro k _
  rw [List.getElem?_append_right (by omega), Nat.add_sub_cancel_left]

/-- The bytes of an overwritten buffer, inside and outside. -/
theorem getElem?_overwrite (hfit : off + data.length ≤ buf.length) (i : ℕ) :
    (overwrite buf off data)[i]? =
      if off ≤ i ∧ i < off + data.length then data[i - off]? else buf[i]? := by
  have htake : (buf.take off).length = off := by rw [List.length_take]; omega
  unfold overwrite
  rw [List.append_assoc]
  by_cases h1 : i < off
  · rw [List.getElem?_append_left (by omega), List.getElem?_take_of_lt h1, if_neg (by omega)]
  · rw [List.getElem?_append_right (by omega), htake]
    by_cases h2 : i < off + data.length
    · rw [if_pos ⟨by omega, h2⟩, List.getElem?_append_left (by omega)]
    · rw [if_neg (by omega), List.getElem?_append_right (by omega), List.getElem?_drop]
      congr 1
      omega

/-- Overwriting keeps the length. -/
theorem length_overwrite (hfit : off + data.length ≤ buf.length) :
    (overwrite buf off data).length = buf.length := by
  simp only [overwrite, List.length_append, List.length_take, List.length_drop]
  omega

/-- What is written stands there. -/
theorem holds_overwrite (hfit : off + data.length ≤ buf.length) :
    Holds (overwrite buf off data) off data := by
  intro k hk
  rw [getElem?_overwrite hfit, if_pos ⟨by omega, by omega⟩, Nat.add_sub_cancel_left]

/-- Two pieces are held one behind the other. -/
theorem holds_append {more : Bytes} :
    Holds buf off (data ++ more) ↔ Holds buf off data ∧ Holds buf (off + data.length) more := by
  constructor
  · intro h
    refine ⟨fun k hk => ?_, fun k hk => ?_⟩
    · rw [h k (by rw [List.length_append]; omega), List.getElem?_append_left hk]
    · rw [Nat.add_assoc, h (data.length + k) (by rw [List.length_append]; omega),
        List.getElem?_append_right (by omega), Nat.add_sub_cancel_left]
  · rintro ⟨h1, h2⟩ k hk
    rw [List.length_append] at hk
    by_cases hlt : k < data.length
    · rw [h1 k hlt, List.getElem?_append_left hlt]
    · rw [List.getElem?_append_right (by omega), ← h2 (k - data.length) (by omega)]
      congr 1
      omega

/-- Two writes side by side are one write. -/
theorem overwrite_overwrite {more : Bytes} (hfit : off + data.length + more.length ≤ buf.length) :
    overwrite (overwrite buf off data) (off + data.length) more =
      overwrite buf off (data ++ more) := by
  have hfit1 : off + data.length ≤ buf.length := by omega
  refine List.ext_getElem? fun i => ?_
  rw [getElem?_overwrite (by rw [length_overwrite hfit1]; exact hfit), getElem?_overwrite hfit1,
    getElem?_overwrite (by rw [List.length_append]; omega), List.length_append]
  -- where the two writes and the outside meet: before `off`, in `data`, in `more`, behind
  by_cases h1 : i < off + data.length
  · rw [if_neg (by omega)]
    by_cases h2 : off ≤ i
    · rw [if_pos ⟨h2, h1⟩, if_pos ⟨h2, by omega⟩, List.getElem?_append_left (by omega)]
    · rw [if_neg (by omega), if_neg (by omega)]
  · by_cases h2 : i < off + data.length + more.length
    · rw [if_pos ⟨by omega, h2⟩, if_pos ⟨by omega, by omega⟩,
        List.getElem?_append_right (by omega)]
      congr 1
      omega
    · rw [if_neg (by omega), if_neg (by omega), if_neg (by omega)]

/-- A slice where data is held is the data. -/
theorem Holds.slice_eq (h : Holds buf off data) : slice buf off data.length = data := by
  refine List.ext_getElem? fun k => ?_
  rw [slice, List.getElem?_take]
  split
  · rename_i hk
    rw [List.getElem?_drop, h k hk]
  · rename_i hk
    rw [List.getElem?_eq_none (by omega)]

/-- A part of a buffer that is put together. -/
theorem slice_append {len : ℕ} (hoff : buf.length = off) (hlen : data.length = len) :
    slice (buf ++ (data ++ more)) off len = data := by
  subst hoff hlen
  rw [slice, List.drop_left, List.take_left]

/-- A field of a record: the fields before it are where it starts. -/
theorem slice_flatten {fields : List Bytes} {k len : ℕ} (h : fields[k]? = some data)
    (hoff : ((fields.take k).map List.length).sum = off) (hlen : data.length = len) :
    slice fields.flatten off len = data := by
  obtain ⟨hk, hget⟩ := List.getElem?_eq_some_iff.mp h
  have hparts : fields.flatten = (fields.take k).flatten ++
      (data ++ (fields.drop (k + 1)).flatten) := by
    rw [← List.flatten_cons, ← hget, ← List.drop_eq_getElem_cons hk, ← List.flatten_append,
      List.take_append_drop]
  rw [hparts]
  exact slice_append (by rw [List.length_flatten, hoff]) hlen

/-- Cutting off what stands at an offset. -/
theorem slice_append_drop (buf : Bytes) (off len : ℕ) :
    slice buf off len ++ buf.drop (off + len) = buf.drop off := by
  rw [slice, ← List.drop_drop, List.take_append_drop]

/-- A slice inside a buffer has its full length. -/
theorem length_slice {len : ℕ} (h : off + len ≤ buf.length) : (slice buf off len).length = len := by
  rw [slice, List.length_take, List.length_drop]
  omega

/-- Every byte outside `[lo, hi)` stays where it is. -/
def Keeps (lo hi : ℕ) (buf buf' : Bytes) : Prop :=
  ∀ i b, buf[i]? = some b → i < lo ∨ hi ≤ i → buf'[i]? = some b

section Keeps

variable {lo hi : ℕ} {buf' buf'' : Bytes}

theorem Keeps.refl : Keeps lo hi buf buf := fun _ _ h _ => h

/-- Changes of one range, one after the other. -/
theorem Keeps.trans (h : Keeps lo hi buf buf') (h' : Keeps lo hi buf' buf'') :
    Keeps lo hi buf buf'' := fun i b hb hi => h' i b (h i b hb hi) hi

/-- A change of a range is one of every larger range. -/
theorem Keeps.mono (h : Keeps lo hi buf buf') {lo' hi' : ℕ} (hlo : lo' ≤ lo) (hhi : hi ≤ hi') :
    Keeps lo' hi' buf buf' := fun i b hb hi => h i b hb (by omega)

/-- Appending changes nothing that was there. -/
theorem Keeps.append (more : Bytes) : Keeps lo hi buf (buf ++ more) := by
  intro i b hb _
  rw [List.getElem?_append_left (List.getElem?_eq_some_iff.mp hb).1, hb]

/-- Overwriting changes the range that is written. -/
theorem Keeps.overwrite (hfit : off + data.length ≤ buf.length) (hlo : lo ≤ off)
    (hhi : off + data.length ≤ hi) : Keeps lo hi buf (overwrite buf off data) := by
  intro i b hb hi
  rw [getElem?_overwrite hfit, if_neg (by omega), hb]

/-- Data outside the range is still held. -/
theorem Holds.keeps (h : Holds buf off data) (hk : Keeps lo hi buf buf')
    (hout : off + data.length ≤ lo ∨ hi ≤ off) : Holds buf' off data := by
  intro k hlt
  have hval := h k hlt
  rw [List.getElem?_eq_getElem hlt] at hval ⊢
  exact hk _ _ hval (by omega)

end Keeps

end Bytes

end CudaOxide.Lib
