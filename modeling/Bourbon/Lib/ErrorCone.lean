import Mathlib.Algebra.Order.Field.Basic
import Mathlib.Algebra.Order.AbsoluteValue.Basic
import Mathlib.Tactic.FieldSimp
import Mathlib.Tactic.Linarith
import Mathlib.Tactic.Ring

/-!
# Cones of lines with a bounded error

A greedy piecewise linear fit keeps, for the points it has absorbed, the set of lines through one
apex whose slopes lie between two bounds, and narrows the bounds with every new point.  A `Cone`
is such a set of lines; `Cone.Fits γ t v` says that every line of the cone passes the point
`(t, v)` at a vertical distance of at most `γ`.

* `Cone.fits_of_bounds` : it is enough to check the two extreme lines;
* `Cone.Fits.mono` : narrowing keeps every point that fitted;
* `Cone.narrow` : the two bound updates for a new point, with `Cone.narrow_fits` (the new point
  fits the narrowed cone) and `Cone.narrow_le` (the cone does not become empty);
* `Cone.start` : the cone of the diagonals of two error bars, which meet half-way between them;
* `Cone.slope_pos` : a cone whose upper bound touches the error bar of an absorbed point above
  the apex has a rising middle line.
-/

namespace ErrorCone

variable {𝕜 : Type*} [Field 𝕜] [LinearOrder 𝕜]

/-- The lines through `(x, y)` with a slope between `lo` and `hi`. -/
structure Cone (𝕜 : Type*) where
  /-- Abscissa of the apex. -/
  x : 𝕜
  /-- Ordinate of the apex. -/
  y : 𝕜
  /-- Least slope. -/
  lo : 𝕜
  /-- Greatest slope. -/
  hi : 𝕜

namespace Cone

/-- The value at `t` of the line of slope `m` through the apex. -/
def line (C : Cone 𝕜) (m t : 𝕜) : 𝕜 := C.y + m * (t - C.x)

/-- Every line of the cone passes within `γ` of the point `(t, v)`. -/
def Fits (C : Cone 𝕜) (γ t v : 𝕜) : Prop := ∀ m, C.lo ≤ m → m ≤ C.hi → |C.line m t - v| ≤ γ

/-- Narrow the cone for a new point `(t, v)`: each bound moves to the line through the end of the
error bar `[v - γ, v + γ]` at `t` if that line lies inside the cone. -/
def narrow (C : Cone 𝕜) (γ t v : 𝕜) : Cone 𝕜 :=
  { C with
    lo := if C.line C.lo t < v - γ then (v - γ - C.y) / (t - C.x) else C.lo
    hi := if v + γ < C.line C.hi t then (v + γ - C.y) / (t - C.x) else C.hi }

/-- The middle slope. -/
def mid (C : Cone 𝕜) : 𝕜 := (C.lo + C.hi) / 2

@[simp] theorem narrow_x (C : Cone 𝕜) (γ t v : 𝕜) : (C.narrow γ t v).x = C.x := rfl

@[simp] theorem narrow_y (C : Cone 𝕜) (γ t v : 𝕜) : (C.narrow γ t v).y = C.y := rfl

@[simp] theorem narrow_line (C : Cone 𝕜) (γ t v m s : 𝕜) :
    (C.narrow γ t v).line m s = C.line m s := rfl

variable {C : Cone 𝕜} {t w : 𝕜}

omit [LinearOrder 𝕜] in
theorem line_slope (h : t - C.x ≠ 0) :
    C.line ((w - C.y) / (t - C.x)) t = w := by
  rw [line, div_mul_cancel₀ _ h]; ring

variable {γ v : 𝕜}

theorem Fits.mono {D : Cone 𝕜} (h : C.Fits γ t v) (hx : D.x = C.x) (hy : D.y = C.y)
    (hlo : C.lo ≤ D.lo) (hhi : D.hi ≤ C.hi) : D.Fits γ t v := by
  intro m h1 h2
  have : D.line m t = C.line m t := by rw [line, line, hx, hy]
  rw [this]
  exact h m (hlo.trans h1) (h2.trans hhi)

theorem line_narrow_lo (ht : C.x < t) :
    C.line (C.narrow γ t v).lo t = max (C.line C.lo t) (v - γ) := by
  simp only [narrow]
  split_ifs with h
  · rw [line_slope (sub_ne_zero.2 ht.ne'), max_eq_right h.le]
  · rw [max_eq_left (not_lt.1 h)]

theorem line_narrow_hi (ht : C.x < t) :
    C.line (C.narrow γ t v).hi t = min (C.line C.hi t) (v + γ) := by
  simp only [narrow]
  split_ifs with h
  · rw [line_slope (sub_ne_zero.2 ht.ne'), min_eq_right h.le]
  · rw [min_eq_left (not_lt.1 h)]

variable [IsStrictOrderedRing 𝕜]

theorem mid_mem (h : C.lo ≤ C.hi) : C.lo ≤ C.mid ∧ C.mid ≤ C.hi := by
  rw [mid]; constructor <;> linarith

variable {m m' : 𝕜}

theorem line_mono (ht : C.x ≤ t) (h : m ≤ m') :
    C.line m t ≤ C.line m' t := by
  have := mul_le_mul_of_nonneg_right h (sub_nonneg.2 ht)
  simp only [line]; linarith

theorem line_anti (ht : t ≤ C.x) (h : m ≤ m') :
    C.line m' t ≤ C.line m t := by
  have := mul_le_mul_of_nonpos_right h (sub_nonpos.2 ht)
  simp only [line]; linarith

theorem slope_le_of_line_le (ht : C.x < t)
    (h : C.line m t ≤ C.line m' t) : m ≤ m' := by
  simp only [line, add_le_add_iff_left] at h
  exact le_of_mul_le_mul_right h (sub_pos.2 ht)

theorem fits_of_bounds (hlo : |C.line C.lo t - v| ≤ γ)
    (hhi : |C.line C.hi t - v| ≤ γ) : C.Fits γ t v := by
  intro m h1 h2
  rw [abs_le] at hlo hhi ⊢
  rcases le_total C.x t with ht | ht
  · have a := line_mono ht h1
    have b := line_mono ht h2
    constructor <;> linarith [hlo.1, hhi.2]
  · have a := line_anti ht h1
    have b := line_anti ht h2
    constructor <;> linarith [hhi.1, hlo.2]

theorem Fits.mid (h : C.Fits γ t v) (hle : C.lo ≤ C.hi) :
    |C.line C.mid t - v| ≤ γ :=
  h _ (mid_mem hle).1 (mid_mem hle).2

variable {C : Cone 𝕜} {γ t v : 𝕜}

theorem lo_le_narrow (ht : C.x < t) : C.lo ≤ (C.narrow γ t v).lo := by
  simp only [narrow]
  split_ifs with h
  · refine slope_le_of_line_le ht ?_
    rw [line_slope (sub_ne_zero.2 ht.ne')]; exact h.le
  · exact le_rfl

theorem narrow_hi_le (ht : C.x < t) : (C.narrow γ t v).hi ≤ C.hi := by
  simp only [narrow]
  split_ifs with h
  · refine slope_le_of_line_le ht ?_
    rw [line_slope (sub_ne_zero.2 ht.ne')]; exact h.le
  · exact le_rfl

/-- **Narrowing does not empty the cone** if the new point lies strictly inside it. -/
theorem narrow_le (ht : C.x < t) (hγ : 0 ≤ γ) (h1 : C.line C.lo t < v) (h2 : v < C.line C.hi t) :
    (C.narrow γ t v).lo ≤ (C.narrow γ t v).hi := by
  refine slope_le_of_line_le ht ?_
  rw [line_narrow_lo ht, line_narrow_hi ht, max_le_iff, le_min_iff, le_min_iff]
  refine ⟨⟨?_, ?_⟩, ?_, ?_⟩ <;> linarith

/-- **The new point fits the narrowed cone** if it lies strictly inside the old one. -/
theorem narrow_fits (ht : C.x < t) (hγ : 0 ≤ γ) (h1 : C.line C.lo t < v)
    (h2 : v < C.line C.hi t) : (C.narrow γ t v).Fits γ t v := by
  refine fits_of_bounds ?_ ?_
  · rw [narrow_line, line_narrow_lo ht, abs_le]
    constructor
    · linarith [le_max_right (C.line C.lo t) (v - γ)]
    · have : max (C.line C.lo t) (v - γ) ≤ v := max_le h1.le (by linarith)
      linarith
  · rw [narrow_line, line_narrow_hi ht, abs_le]
    constructor
    · have : v ≤ min (C.line C.hi t) (v + γ) := le_min h2.le (by linarith)
      linarith
    · linarith [min_le_right (C.line C.hi t) (v + γ)]

theorem Fits.narrow {s : 𝕜} (h : C.Fits γ s w) (ht : C.x < t) : (C.narrow γ t v).Fits γ s w :=
  h.mono rfl rfl (lo_le_narrow ht) (narrow_hi_le ht)

/-- The upper bound of the cone touches the error bar of a point above and to the right of the
apex, which the lower bound leaves on or above its own line. -/
def Touches (C : Cone 𝕜) (γ : 𝕜) : Prop :=
  ∃ p q, C.x < p ∧ C.y < q ∧ C.line C.hi p = q + γ ∧ q - γ ≤ C.line C.lo p

theorem Touches.narrow (h : C.Touches γ) (ht : C.x < t) (hv : C.y < v) :
    (C.narrow γ t v).Touches γ := by
  obtain ⟨p, q, hp, hq, hhi, hlo⟩ := h
  by_cases hc : v + γ < C.line C.hi t
  · refine ⟨t, v, ht, hv, ?_, ?_⟩
    · rw [narrow_line, line_narrow_hi ht, min_eq_right hc.le]
    · rw [narrow_line, line_narrow_lo ht]; exact le_max_right _ _
  · refine ⟨p, q, hp, hq, ?_, ?_⟩
    · rw [narrow_line]; simpa only [ErrorCone.Cone.narrow, hc, ite_false] using hhi
    · rw [narrow_line]; exact hlo.trans (line_mono hp.le (lo_le_narrow ht))

/-- **The middle line of a cone that touches an error bar rises.** -/
theorem slope_pos (h : C.Touches γ) : 0 < C.mid := by
  obtain ⟨p, q, hp, hq, hhi, hlo⟩ := h
  simp only [line] at hhi hlo
  have key : 0 < (C.lo + C.hi) * (p - C.x) := by linarith
  have := (mul_pos_iff_of_pos_right (sub_pos.2 hp)).1 key
  rw [mid]; linarith

/-! ### The first two points -/

/-- The lines that cross the error bars of `(x₀, y₀)` and `(x₁, y₁)` between their diagonals. -/
def start (γ x₀ y₀ x₁ y₁ : 𝕜) : Cone 𝕜 where
  x := (x₀ + x₁) / 2
  y := (y₀ + y₁) / 2
  lo := (y₁ - y₀ - 2 * γ) / (x₁ - x₀)
  hi := (y₁ - y₀ + 2 * γ) / (x₁ - x₀)

variable {x₀ y₀ x₁ y₁ : 𝕜}

theorem start_line_left (h : x₀ < x₁) (w : 𝕜) :
    (start γ x₀ y₀ x₁ y₁).line ((y₁ - y₀ + 2 * w) / (x₁ - x₀)) x₀ = y₀ - w := by
  have hd : x₁ - x₀ ≠ 0 := (sub_pos.2 h).ne'
  simp only [line, start]
  field_simp
  ring

theorem start_line_right (h : x₀ < x₁) (w : 𝕜) :
    (start γ x₀ y₀ x₁ y₁).line ((y₁ - y₀ + 2 * w) / (x₁ - x₀)) x₁ = y₁ + w := by
  have hd : x₁ - x₀ ≠ 0 := (sub_pos.2 h).ne'
  simp only [line, start]
  field_simp
  ring

omit [LinearOrder 𝕜] [IsStrictOrderedRing 𝕜] in
theorem start_lo : (start γ x₀ y₀ x₁ y₁).lo = (y₁ - y₀ + 2 * -γ) / (x₁ - x₀) := by
  simp only [start]; ring

omit [LinearOrder 𝕜] [IsStrictOrderedRing 𝕜] in
theorem start_hi : (start γ x₀ y₀ x₁ y₁).hi = (y₁ - y₀ + 2 * γ) / (x₁ - x₀) := rfl

theorem start_le (h : x₀ < x₁) (hγ : 0 ≤ γ) :
    (start γ x₀ y₀ x₁ y₁).lo ≤ (start γ x₀ y₀ x₁ y₁).hi :=
  div_le_div_of_nonneg_right (by linarith) (sub_pos.2 h).le

theorem start_fits_left (h : x₀ < x₁) (hγ : 0 ≤ γ) : (start γ x₀ y₀ x₁ y₁).Fits γ x₀ y₀ := by
  refine fits_of_bounds ?_ ?_
  · rw [start_lo, start_line_left h, sub_neg_eq_add, add_sub_cancel_left, abs_of_nonneg hγ]
  · rw [start_hi, start_line_left h, sub_sub_cancel_left, abs_neg, abs_of_nonneg hγ]

theorem start_fits_right (h : x₀ < x₁) (hγ : 0 ≤ γ) : (start γ x₀ y₀ x₁ y₁).Fits γ x₁ y₁ := by
  refine fits_of_bounds ?_ ?_
  · rw [start_lo, start_line_right h, add_sub_cancel_left, abs_neg, abs_of_nonneg hγ]
  · rw [start_hi, start_line_right h, add_sub_cancel_left, abs_of_nonneg hγ]

theorem start_touches (h : x₀ < x₁) (hy : y₀ < y₁) : (start γ x₀ y₀ x₁ y₁).Touches γ := by
  refine ⟨x₁, y₁, ?_, ?_, start_line_right h γ, ?_⟩
  · simp only [start]; linarith
  · simp only [start]; linarith
  · rw [start_lo, start_line_right h, sub_eq_add_neg]

end Cone

end ErrorCone
