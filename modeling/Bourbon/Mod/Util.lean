import Mathlib.Data.List.TakeWhile
import Bourbon.Util.Slice
import Bourbon.Lib.Decimal
import Bourbon.Lib.TextStream

/-!
# Keys as numbers

The learned index works on the numbers its keys denote.  Training reads a key with `std::stoull`,
the bounds of a model with `atoll`, and a lookup with `SliceToInteger` (`mod/util.cpp`).  The
three agree on zero-padded decimal keys below `2^63` (`stoull_eq`, `atoll_eq`,
`sliceToInteger_eq`); outside that range they differ: `stoull` goes up to `2^64 - 1`, `atoll`
saturates at `2^63 - 1` and `SliceToInteger` wraps around.  `BlockGeometry` holds the global
numbers that learned reads use.
-/

namespace Bourbon

open Decimal

/-- The globals `block_num_entries`, `block_size` and `entry_size`, and whether they have been
recorded. -/
structure BlockGeometry where
  block_num_entries : ℕ
  block_size : ℕ
  entry_size : ℕ
  block_num_entries_recorded : Bool
  deriving DecidableEq

/-- The sign and the digits that `strtoull` and `strtoll` read at the start of a string in base
ten; `none` if there is no digit to read. -/
def scanDecimal (s : Bytes) : Option (Bool × Bytes) :=
  let s := s.dropWhile TextStream.isSpace
  let (neg, s) := match s with
    | 45 :: t => (true, t)
    | 43 :: t => (false, t)
    | _ => (false, s)
  let ds := s.takeWhile fun b => decide (IsDigit b)
  if ds = [] then none else some (neg, ds)

/-- `std::stoull`; `none` stands for the exceptions `invalid_argument` and `out_of_range`. -/
def stoull (s : Bytes) : Option ℕ :=
  match scanDecimal s with
  | none => none
  | some (neg, ds) =>
    if value ds < 2 ^ 64 then some (if neg then (2 ^ 64 - value ds) % 2 ^ 64 else value ds)
    else none

/-- `atoll`, which saturates at the ends of `long long`. -/
def atoll (s : Bytes) : ℤ :=
  match scanDecimal s with
  | none => 0
  | some (false, ds) => min (value ds) (2 ^ 63 - 1)
  | some (true, ds) => max (-(value ds : ℤ)) (-2 ^ 63)

/-- Conversion of a `long long` to `uint64_t`. -/
def toUint64 (z : ℤ) : ℕ := (z % 2 ^ 64).toNat

/-- Conversion of a (signed) `char` to `int`. -/
def charToInt (b : UInt8) : ℤ := if b.toNat < 128 then b.toNat else (b.toNat : ℤ) - 256

/-- One round of the loop of `SliceToInteger`: the number read so far and the flag
`leading_zeros`. -/
def sliceToIntegerStep (st : ℕ × Bool) (b : UInt8) : ℕ × Bool :=
  if st.2 && b == 48 then st
  else (toUint64 ((st.1 * 8 + st.1 * 2 : ℕ) + charToInt b - 48), false)

/-- `adgMod::SliceToInteger`. -/
def sliceToInteger (slice : Bytes) : ℕ := (slice.foldl sliceToIntegerStep (0, true)).1

variable {b : UInt8}

theorem isSpace_digit (h : IsDigit b) : TextStream.isSpace b = false := by
  have h1 := h.1
  have h2 := h.2
  simp only [TextStream.isSpace, Bool.or_eq_false_iff, beq_eq_false_iff_ne, Bool.and_eq_false_iff,
    decide_eq_false_iff_not, UInt8.le_iff_toNat_le, ne_eq, ← UInt8.toNat_inj]
  simp only [UInt8.reduceToNat]
  omega

variable {s : Bytes}

theorem scanDecimal_eq (h : IsNumeral s) : scanDecimal s = some (false, s) := by
  obtain ⟨hne, hd⟩ := h
  obtain ⟨b, t, rfl⟩ := List.exists_cons_of_ne_nil hne
  have hb := hd b List.mem_cons_self
  have hdrop : (b :: t).dropWhile TextStream.isSpace = b :: t := by
    rw [List.dropWhile_cons_of_neg (by simp [isSpace_digit hb])]
  have htake : (b :: t).takeWhile (fun b => decide (IsDigit b)) = b :: t :=
    List.takeWhile_eq_self_iff.2 fun c hc => decide_eq_true (hd c hc)
  have h45 : b ≠ 45 := by rintro rfl; exact absurd hb.1 (by decide)
  have h43 : b ≠ 43 := by rintro rfl; exact absurd hb.1 (by decide)
  simp only [scanDecimal, hdrop]
  split
  · rename_i heq; exact absurd (List.cons.inj heq).1 h45
  · rename_i heq; exact absurd (List.cons.inj heq).1 h43
  · simp [htake]

theorem stoull_eq (h : IsNumeral s) (hv : value s < 2 ^ 64) :
    stoull s = some (value s) := by
  simp only [stoull, scanDecimal_eq h, if_pos hv, Bool.false_eq_true, if_false]

theorem toUint64_atoll (h : IsNumeral s) :
    toUint64 (atoll s) = min (value s) (2 ^ 63 - 1) := by
  simp only [atoll, scanDecimal_eq h, toUint64]
  omega

theorem atoll_eq (h : IsNumeral s) (hv : value s < 2 ^ 63) :
    toUint64 (atoll s) = value s := by
  rw [toUint64_atoll h]
  omega

variable {n : ℕ} {z : Bool}

theorem sliceToIntegerStep_digit (hb : IsDigit b)
    (hz : z = true → n = 0) :
    ∃ z', sliceToIntegerStep (n % 2 ^ 64, z) b = ((10 * n + digit b) % 2 ^ 64, z') ∧
      (z' = true → 10 * n + digit b = 0) := by
  have hd := hb.toNat_eq
  have h9 := hb.digit_le
  simp only [sliceToIntegerStep]
  split_ifs with hc
  · simp only [Bool.and_eq_true, beq_iff_eq] at hc
    obtain ⟨rfl, rfl⟩ := hc
    have hn := hz rfl
    have h0 : digit 48 = 0 := rfl
    exact ⟨true, by simp [hn, h0], fun _ => by omega⟩
  · refine ⟨false, ?_, by simp⟩
    have hb' : b.toNat < 128 := by omega
    simp only [charToInt, hb', if_true, toUint64, Prod.mk.injEq, and_true]
    omega

theorem foldl_sliceToIntegerStep (h : ∀ b ∈ s, IsDigit b)
    (hz : z = true → n = 0) :
    (s.foldl sliceToIntegerStep (n % 2 ^ 64, z)).1 =
      s.foldl (fun n b => 10 * n + digit b) n % 2 ^ 64 := by
  induction s generalizing n z with
  | nil => rfl
  | cons b s ih =>
    obtain ⟨z', hs, hz'⟩ := sliceToIntegerStep_digit (h b List.mem_cons_self) hz
    rw [List.foldl_cons, List.foldl_cons, hs]
    exact ih (fun c hc => h c (List.mem_cons_of_mem _ hc)) hz'

/-- **`SliceToInteger` reads the number modulo `2^64`.** -/
theorem sliceToInteger_eq (h : ∀ b ∈ s, IsDigit b) :
    sliceToInteger s = value s % 2 ^ 64 :=
  foldl_sliceToIntegerStep h (n := 0) (z := true) fun _ => rfl

/-! ### Keys of one length -/

/-- A decimal key of length `len`. -/
def IsKey (len : ℕ) (k : Bytes) : Prop := IsNumeral k ∧ k.length = len

instance (len : ℕ) (k : Bytes) : Decidable (IsKey len k) := inferInstanceAs (Decidable (_ ∧ _))

variable {len : ℕ} {a : Bytes}

theorem IsKey.lt_iff {b : Bytes} (ha : IsKey len a) (hb : IsKey len b) :
    a < b ↔ value a < value b :=
  Decimal.lt_iff_value ha.1.2 hb.1.2 (ha.2.trans hb.2.symm)

theorem IsKey.le_iff {b : Bytes} (ha : IsKey len a) (hb : IsKey len b) :
    a ≤ b ↔ value a ≤ value b := by
  rw [← not_lt, ← not_lt, hb.lt_iff ha]

end Bourbon
