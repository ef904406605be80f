import Mathlib.Logic.Function.Basic
import Mathlib.Tactic.Common
import Mathlib.Tactic.Ring

/-!
# Byte blocks with little-endian fields

A block is a function from offsets to bytes.  `overwrite` copies bytes into it,
`load` and `store` read and write a field of any width.  A field is read back as
it was stored, and a store does not show in a field that lies elsewhere.
-/

namespace OSCourse.Library.ByteBlock

/-- The bytes of a block, by offset. -/
abbrev Bytes := Nat → BitVec 8

/-- The block of zeros. -/
def zeros : Bytes := fun _ => 0

/-- The little-endian number in the `width` bytes from `offset` on. -/
def load (bytes : Bytes) (offset : Nat) : Nat → Nat
  | 0 => 0
  | width + 1 =>
      (bytes offset).toNat + 256 * load bytes (offset + 1) width

/-- Copy the first `width` bytes of `source` to `offset`. -/
def overwrite (bytes : Bytes) (offset width : Nat) (source : Bytes) :
    Bytes :=
  fun place =>
    if offset ≤ place ∧ place < offset + width then
      source (place - offset)
    else bytes place

/-- The bytes of a number, lowest first. -/
def littleEndian (value : Nat) : Bytes :=
  fun place => BitVec.ofNat 8 (value / 256 ^ place)

/-- Store a number in the `width` bytes from `offset` on. -/
def store (bytes : Bytes) (offset width value : Nat) : Bytes :=
  overwrite bytes offset width (littleEndian value)

/-! ## Copying -/

@[simp]
theorem overwrite_nothing (bytes source : Bytes) (offset : Nat) :
    overwrite bytes offset 0 source = bytes := by
  funext place
  rw [overwrite, if_neg (by omega)]

/-- Two adjacent copies are one. -/
theorem overwrite_overwrite (bytes source : Bytes)
    (offset first second : Nat) :
    overwrite (overwrite bytes offset first source) (offset + first) second
        (fun place => source (first + place)) =
      overwrite bytes offset (first + second) source := by
  funext place
  simp only [overwrite]
  split
  · rw [if_pos (by omega)]
    congr 1
    omega
  · split
    · rw [if_pos (by omega)]
    · rw [if_neg (by omega)]

/-! ## Ranges -/

/-- The `count` bytes from `offset` on. -/
def slice (bytes : Bytes) (offset count : Nat) : List (BitVec 8) :=
  (List.range count).map fun place => bytes (offset + place)

@[simp]
theorem length_slice (bytes : Bytes) (offset count : Nat) :
    (slice bytes offset count).length = count := by
  simp [slice]

theorem slice_congr {bytes other : Bytes} {offset shift count : Nat}
    (same : ∀ place < count, bytes (offset + place) = other (shift + place)) :
    slice bytes offset count = slice other shift count :=
  List.map_congr_left fun place member =>
    same place (List.mem_range.mp member)

theorem slice_append (bytes : Bytes) (offset first second : Nat) :
    slice bytes offset first ++ slice bytes (offset + first) second =
      slice bytes offset (first + second) := by
  simp [slice, List.range_add, Nat.add_assoc]

theorem take_slice (bytes : Bytes) (offset length count : Nat) :
    (slice bytes offset length).take count =
      slice bytes offset (min count length) := by
  simp [slice, ← List.map_take, List.take_range]

/-- A shorter range is the start of a longer one. -/
theorem slice_start (bytes : Bytes) (offset : Nat) {count length : Nat}
    (short : count ≤ length) :
    slice bytes offset count <+: slice bytes offset length := by
  rw [← Nat.min_eq_left short, ← take_slice]
  exact List.take_prefix _ _

theorem drop_slice (bytes : Bytes) (offset length count : Nat) :
    (slice bytes offset length).drop count =
      slice bytes (offset + count) (length - count) := by
  by_cases short : count ≤ length
  · have split : length = count + (length - count) := by omega
    rw [split, ← slice_append, Nat.add_sub_cancel_left]
    exact List.drop_left' (length_slice _ _ _)
  · have none : length - count = 0 := by omega
    rw [none, List.drop_eq_nil_of_le (by rw [length_slice]; omega)]
    rfl

/-! ## Reading what was written -/

theorem load_congr {bytes other : Bytes} {offset shift : Nat} :
    ∀ {width : Nat},
      (∀ place < width, bytes (offset + place) = other (shift + place)) →
        load bytes offset width = load other shift width := by
  intro width same
  induction width generalizing offset shift with
  | zero => rfl
  | succ width induction =>
      have first := same 0 (by omega)
      have rest :
          load bytes (offset + 1) width = load other (shift + 1) width := by
        apply induction
        intro place inside
        have next := same (place + 1) (by omega)
        simpa [Nat.add_assoc, Nat.add_comm 1] using next
      simp only [Nat.add_zero] at first
      simp only [load, first, rest]

@[simp]
theorem load_zeros (offset width : Nat) : load zeros offset width = 0 := by
  induction width generalizing offset with
  | zero => rfl
  | succ width induction => simp [load, zeros, induction (offset + 1)]

theorem load_littleEndian (value : Nat) (width : Nat) :
    load (littleEndian value) 0 width = value % 256 ^ width := by
  induction width generalizing value with
  | zero => simp [load, Nat.mod_one]
  | succ width induction =>
      have shifted :
          load (littleEndian value) 1 width =
            load (littleEndian (value / 256)) 0 width := by
        apply load_congr
        intro place _
        simp [littleEndian, Nat.div_div_eq_div_mul, pow_add]
      have first : (littleEndian value 0).toNat = value % 256 := by
        simp [littleEndian]
      rw [load, Nat.zero_add, shifted, induction, first, Nat.pow_succ',
        Nat.mod_mul]

/-- A field inside a copied area is read from the source. -/
theorem load_overwrite_inside (bytes source : Bytes)
    (offset : Nat) {width field shift : Nat} (inside : shift + field ≤ width) :
    load (overwrite bytes offset width source) (offset + shift) field =
      load source shift field := by
  apply load_congr
  intro place bound
  have covered :
      offset ≤ offset + shift + place ∧
        offset + shift + place < offset + width := by omega
  rw [overwrite, if_pos covered]
  congr 1
  omega

/-- A field outside a copied area is not affected. -/
theorem load_overwrite_outside (bytes source : Bytes)
    {offset width field place : Nat}
    (outside : place + field ≤ offset ∨ offset + width ≤ place) :
    load (overwrite bytes offset width source) place field =
      load bytes place field := by
  apply load_congr
  intro distance bound
  rw [overwrite, if_neg (by omega)]

/-- A stored number is read back. -/
theorem load_store_same (bytes : Bytes) (offset width value : Nat)
    (fits : value < 256 ^ width) :
    load (store bytes offset width value) offset width = value := by
  have inside :
      load (store bytes offset width value) (offset + 0) width =
        load (littleEndian value) 0 width :=
    load_overwrite_inside bytes (littleEndian value) offset (by omega)
  rw [Nat.add_zero] at inside
  rw [inside, load_littleEndian, Nat.mod_eq_of_lt fits]

/-- A store does not show in a field that lies elsewhere. -/
theorem load_store_outside (bytes : Bytes)
    {offset width place field : Nat} (value : Nat)
    (outside : place + field ≤ offset ∨ offset + width ≤ place) :
    load (store bytes offset width value) place field =
      load bytes place field :=
  load_overwrite_outside bytes (littleEndian value) outside

end OSCourse.Library.ByteBlock
