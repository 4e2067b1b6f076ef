import Mathlib.Data.List.Lex
import Mathlib.Order.Nat
import Mathlib.Order.Compare

/-!
# Byte strings and their order

`util/comparator.cc` orders keys by `Slice::compare`: `memcmp` over the common length, then the
lengths.  Byte strings are lists of bytes here, and `compare_eq` identifies that comparison with
the lexicographic order on lists, so that a key can be compared with `<` everywhere else.
-/

namespace Bourbon

/-- The order of `memcmp`. -/
instance instLinearOrderUInt8 : LinearOrder UInt8 where
  le_refl a := UInt8.le_refl a
  le_trans _ _ _ := UInt8.le_trans
  le_antisymm _ _ := UInt8.le_antisymm
  le_total a b := UInt8.le_total a b
  lt_iff_le_not_ge a b := by
    rw [UInt8.lt_iff_toNat_lt, UInt8.le_iff_toNat_le, UInt8.le_iff_toNat_le]; omega
  toDecidableLE := inferInstance
  toDecidableLT := inferInstance
  toDecidableEq := inferInstance

/-- A byte string: the contents of a `Slice`, a `std::string` or a file. -/
abbrev Bytes := List UInt8

namespace Slice

/-- `memcmp` over two buffers of the same length. -/
def memcmp : Bytes → Bytes → Ordering
  | a :: as, b :: bs => if a < b then .lt else if b < a then .gt else memcmp as bs
  | _, _ => .eq

/-- `Slice::compare`. -/
def compare (a b : Bytes) : Ordering :=
  let min_len := if a.length < b.length then a.length else b.length
  match memcmp (a.take min_len) (b.take min_len) with
  | .eq => if a.length < b.length then .lt else if b.length < a.length then .gt else .eq
  | r => r

theorem compare_cons (x y : UInt8) (a b : Bytes) :
    compare (x :: a) (y :: b) = if x < y then .lt else if y < x then .gt else compare a b := by
  have h : (if a.length + 1 < b.length + 1 then a.length + 1 else b.length + 1) =
      (if a.length < b.length then a.length else b.length) + 1 := by
    split_ifs <;> omega
  simp only [compare, List.length_cons, h, List.take_succ_cons, memcmp]
  split_ifs <;> simp_all

/-- **`Slice::compare` is the lexicographic order of byte strings.** -/
theorem compare_eq (a b : Bytes) : compare a b = cmp a b := by
  induction a generalizing b with
  | nil => cases b <;> rfl
  | cons x a ih =>
    cases b with
    | nil => rfl
    | cons y b =>
      rw [compare_cons, ih b]
      simp only [cmp, cmpUsing, List.cons_lt_cons_iff]
      rcases lt_trichotomy x y with h | rfl | h
      · simp [h]
      · simp
      · simp [h, h.not_gt, h.ne, h.ne']

end Slice

theorem Slice.compare_eq_lt_iff {a b : Bytes} : Slice.compare a b = .lt ↔ a < b := by
  rw [Slice.compare_eq]
  simp only [cmp, cmpUsing]
  split_ifs <;> simp_all

theorem Slice.compare_trans (a b c : Bytes) (hab : Slice.compare a b = .lt)
    (hbc : Slice.compare b c = .lt) : Slice.compare a c = .lt := by
  rw [Slice.compare_eq_lt_iff] at hab hbc ⊢
  exact hab.trans hbc

theorem Slice.compare_eq_eq_iff {a b : Bytes} : Slice.compare a b = .eq ↔ a = b := by
  rw [Slice.compare_eq]
  simp only [cmp, cmpUsing]
  rcases lt_trichotomy a b with h | h | h
  · simp [h, h.ne]
  · simp [h]
  · simp [h, h.ne', h.not_gt]

end Bourbon
