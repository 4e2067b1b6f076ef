import Mathlib.Order.Nat
import Mathlib.Tactic.Set

/-!
# Bisection of an integer interval

The halving loops that programs write over a sorted array, for a predicate on indices that is
monotone (true on an initial segment).  Three shapes occur in practice:

* `lowerBound` : `while lo < hi`, go right with `lo = mid + 1`, left with `hi = mid`; the result
  is the first index where the predicate fails;
* `lastTrue` : `while lo < hi` with the midpoint rounded up, go right with `lo = mid`, left with
  `hi = mid - 1`; the result is the last index where the predicate holds;
* `bracket` : `while lo + 1 < hi`, one end moves to the midpoint; the result is the left end of
  the two adjacent indices between which the predicate switches.

The variants `lowerBound?` and `lastTrue?` read the predicate through a partial function and
stop when it is undefined.  All loops are structural in a fuel argument; the fuel the wrappers
pass is always enough, which is part of the specifications.
-/

namespace Bisect

/-! ### First failure -/

/-- The loop of `lowerBound`, cut off after `fuel` rounds. -/
def lowerBoundAux (p : ℕ → Bool) : ℕ → ℕ → ℕ → ℕ
  | 0, lo, _ => lo
  | fuel + 1, lo, hi =>
    if lo < hi then
      let mid := (lo + hi) / 2
      if p mid then lowerBoundAux p fuel (mid + 1) hi else lowerBoundAux p fuel lo mid
    else lo

/-- The first index of `[lo, hi)` at which `p` fails, or `hi`. -/
def lowerBound (p : ℕ → Bool) (lo hi : ℕ) : ℕ := lowerBoundAux p (hi - lo) lo hi

/-- `lowerBound` for a predicate that may be undefined. -/
def lowerBoundAux? (p : ℕ → Option Bool) : ℕ → ℕ → ℕ → Option ℕ
  | 0, lo, _ => some lo
  | fuel + 1, lo, hi =>
    if lo < hi then
      let mid := (lo + hi) / 2
      match p mid with
      | none => none
      | some true => lowerBoundAux? p fuel (mid + 1) hi
      | some false => lowerBoundAux? p fuel lo mid
    else some lo

/-- The first index of `[lo, hi)` at which `p` fails, or `hi`; undefined if the search reads `p`
where it is undefined. -/
def lowerBound? (p : ℕ → Option Bool) (lo hi : ℕ) : Option ℕ := lowerBoundAux? p (hi - lo) lo hi

/-- `p` is true on an initial segment of `[lo, hi)`. -/
def MonoOn (p : ℕ → Bool) (lo hi : ℕ) : Prop :=
  ∀ i j, lo ≤ i → i ≤ j → j < hi → p j = true → p i = true

variable {p : ℕ → Bool} {lo hi : ℕ}

theorem MonoOn.mono {lo' hi' : ℕ} (h : MonoOn p lo hi) (hl : lo ≤ lo')
    (hh : hi' ≤ hi) : MonoOn p lo' hi' :=
  fun i j hi hij hj => h i j (hl.trans hi) hij (hj.trans_le hh)

theorem lowerBoundAux_spec (fuel lo hi : ℕ) (hf : hi - lo ≤ fuel) (hle : lo ≤ hi)
    (hm : MonoOn p lo hi) :
    lo ≤ lowerBoundAux p fuel lo hi ∧ lowerBoundAux p fuel lo hi ≤ hi ∧
      (∀ i, lo ≤ i → i < lowerBoundAux p fuel lo hi → p i = true) ∧
      ∀ i, lowerBoundAux p fuel lo hi ≤ i → i < hi → p i = false := by
  induction fuel generalizing lo hi with
  | zero =>
    have : lo = hi := by omega
    subst this
    exact ⟨le_rfl, le_rfl, fun i h1 h2 => absurd h2 (by simp [lowerBoundAux]; omega),
      fun i h1 h2 => absurd h2 (by simpa [lowerBoundAux] using h1)⟩
  | succ fuel ih =>
    rw [lowerBoundAux]
    split_ifs with hlt
    · set mid := (lo + hi) / 2 with hmid
      have hb : lo ≤ mid ∧ mid < hi := by omega
      simp only
      split_ifs with hp
      · obtain ⟨h1, h2, h3, h4⟩ := ih (mid + 1) hi (by omega) (by omega)
          (hm.mono (by omega) le_rfl)
        refine ⟨by omega, h2, fun i hi1 hi2 => ?_, h4⟩
        rcases Nat.lt_or_ge mid i with hc | hc
        · exact h3 i hc hi2
        · exact hm i mid hi1 hc hb.2 hp
      · obtain ⟨h1, h2, h3, h4⟩ := ih lo mid (by omega) hb.1 (hm.mono le_rfl (by omega))
        refine ⟨h1, by omega, h3, fun i hi1 hi2 => ?_⟩
        rcases Nat.lt_or_ge i mid with hc | hc
        · exact h4 i hi1 hc
        · by_contra hpi
          exact hp (hm mid i hb.1 hc hi2 (by simpa using hpi))
    · have : lo = hi := by omega
      subst this
      exact ⟨le_rfl, le_rfl, fun i h1 h2 => absurd h2 (by omega),
        fun i h1 h2 => absurd h2 (by omega)⟩

/-- **`lowerBound` splits the interval** into the indices where `p` holds and those where it
fails. -/
theorem lowerBound_spec (hle : lo ≤ hi) (hm : MonoOn p lo hi) :
    lo ≤ lowerBound p lo hi ∧ lowerBound p lo hi ≤ hi ∧
      (∀ i, lo ≤ i → i < lowerBound p lo hi → p i = true) ∧
      ∀ i, lowerBound p lo hi ≤ i → i < hi → p i = false :=
  lowerBoundAux_spec _ lo hi le_rfl hle hm

/-- An index with `p` true below and `p` false at it is the result of `lowerBound`. -/
theorem lowerBound_eq {r : ℕ} (hlo : lo ≤ r) (hhi : r ≤ hi)
    (hm : MonoOn p lo hi) (hlt : ∀ i, lo ≤ i → i < r → p i = true)
    (hr : r < hi → p r = false) : lowerBound p lo hi = r := by
  obtain ⟨h1, h2, h3, h4⟩ := lowerBound_spec (hlo.trans hhi) hm
  rcases Nat.lt_trichotomy (lowerBound p lo hi) r with h | h | h
  · have := hlt _ h1 h
    rw [h4 _ le_rfl (by omega)] at this
    exact absurd this (by simp)
  · exact h
  · have := h3 r hlo h
    rw [hr (by omega)] at this
    exact absurd this (by simp)

variable {q : ℕ → Bool}

theorem lowerBoundAux?_eq {p : ℕ → Option Bool} (fuel lo hi : ℕ)
    (h : ∀ i, lo ≤ i → i < hi → p i = some (q i)) :
    lowerBoundAux? p fuel lo hi = some (lowerBoundAux q fuel lo hi) := by
  induction fuel generalizing lo hi with
  | zero => rfl
  | succ fuel ih =>
    rw [lowerBoundAux?, lowerBoundAux]
    split_ifs with hlt
    · simp only
      rw [h _ (by omega) (by omega)]
      cases q ((lo + hi) / 2)
      · exact ih _ _ fun i h1 h2 => h i h1 (by omega)
      · exact ih _ _ fun i h1 h2 => h i (by omega) h2
    · rfl

theorem lowerBoundAux?_mono {p p' : ℕ → Option Bool} (h : ∀ i b, p i = some b → p' i = some b)
    {fuel lo hi r : ℕ} (hr : lowerBoundAux? p fuel lo hi = some r) :
    lowerBoundAux? p' fuel lo hi = some r := by
  induction fuel generalizing lo hi with
  | zero => exact hr
  | succ fuel ih =>
    rw [lowerBoundAux?] at hr ⊢
    split_ifs at hr ⊢ with hlt
    · cases hp : p ((lo + hi) / 2) with
      | none =>
        simp only [hp] at hr
        cases hr
      | some b =>
        simp only [hp, h _ b hp] at hr ⊢
        cases b with
        | true => exact ih hr
        | false => exact ih hr
    · exact hr

/-- A search that reads a predicate only where it is defined finds the same for an extension. -/
theorem lowerBound?_mono {p p' : ℕ → Option Bool} (h : ∀ i b, p i = some b → p' i = some b)
    {lo hi r : ℕ} (hr : lowerBound? p lo hi = some r) : lowerBound? p' lo hi = some r :=
  lowerBoundAux?_mono h hr

theorem lowerBound?_eq {p : ℕ → Option Bool}
    (h : ∀ i, lo ≤ i → i < hi → p i = some (q i)) :
    lowerBound? p lo hi = some (lowerBound q lo hi) :=
  lowerBoundAux?_eq _ lo hi h

/-! ### Last success -/

/-- The loop of `lastTrue`, cut off after `fuel` rounds. -/
def lastTrueAux (p : ℕ → Bool) : ℕ → ℕ → ℕ → ℕ
  | 0, lo, _ => lo
  | fuel + 1, lo, hi =>
    if lo < hi then
      let mid := (lo + hi + 1) / 2
      if p mid then lastTrueAux p fuel mid hi else lastTrueAux p fuel lo (mid - 1)
    else lo

/-- The last index of `(lo, hi]` at which `p` holds, or `lo`. -/
def lastTrue (p : ℕ → Bool) (lo hi : ℕ) : ℕ := lastTrueAux p (hi - lo) lo hi

/-- `lastTrue` for a predicate that may be undefined. -/
def lastTrueAux? (p : ℕ → Option Bool) : ℕ → ℕ → ℕ → Option ℕ
  | 0, lo, _ => some lo
  | fuel + 1, lo, hi =>
    if lo < hi then
      let mid := (lo + hi + 1) / 2
      match p mid with
      | none => none
      | some true => lastTrueAux? p fuel mid hi
      | some false => lastTrueAux? p fuel lo (mid - 1)
    else some lo

/-- The last index of `(lo, hi]` at which `p` holds, or `lo`; undefined if the search reads `p`
where it is undefined. -/
def lastTrue? (p : ℕ → Option Bool) (lo hi : ℕ) : Option ℕ := lastTrueAux? p (hi - lo) lo hi

theorem lastTrueAux_spec (fuel lo hi : ℕ) (hf : hi - lo ≤ fuel) (hle : lo ≤ hi)
    (hm : MonoOn p lo (hi + 1)) :
    lo ≤ lastTrueAux p fuel lo hi ∧ lastTrueAux p fuel lo hi ≤ hi ∧
      (lastTrueAux p fuel lo hi = lo ∨ p (lastTrueAux p fuel lo hi) = true) ∧
      ∀ i, lastTrueAux p fuel lo hi < i → i ≤ hi → p i = false := by
  induction fuel generalizing lo hi with
  | zero =>
    have : lo = hi := by omega
    subst this
    exact ⟨le_rfl, le_rfl, .inl rfl, fun i h1 h2 => absurd h2 (by simpa [lastTrueAux] using h1)⟩
  | succ fuel ih =>
    rw [lastTrueAux]
    split_ifs with hlt
    · set mid := (lo + hi + 1) / 2 with hmid
      have hb : lo < mid ∧ mid ≤ hi := by omega
      simp only
      split_ifs with hp
      · obtain ⟨h1, h2, h3, h4⟩ := ih mid hi (by omega) hb.2 (hm.mono (by omega) le_rfl)
        refine ⟨by omega, h2, .inr ?_, h4⟩
        rcases h3 with h3 | h3
        · rw [h3]; exact hp
        · exact h3
      · obtain ⟨h1, h2, h3, h4⟩ := ih lo (mid - 1) (by omega) (by omega)
          (hm.mono le_rfl (by omega))
        refine ⟨h1, by omega, h3, fun i hi1 hi2 => ?_⟩
        rcases Nat.lt_or_ge i mid with hc | hc
        · exact h4 i hi1 (by omega)
        · by_contra hpi
          exact hp (hm mid i hb.1.le hc (by omega) (by simpa using hpi))
    · have : lo = hi := by omega
      subst this
      exact ⟨le_rfl, le_rfl, .inl rfl, fun i h1 h2 => absurd h2 (by omega)⟩

/-- **`lastTrue` finds the last success**: `p` holds at the result unless the search never left
its start, and fails after it. -/
theorem lastTrue_spec (hle : lo ≤ hi) (hm : MonoOn p lo (hi + 1)) :
    lo ≤ lastTrue p lo hi ∧ lastTrue p lo hi ≤ hi ∧
      (lastTrue p lo hi = lo ∨ p (lastTrue p lo hi) = true) ∧
      ∀ i, lastTrue p lo hi < i → i ≤ hi → p i = false :=
  lastTrueAux_spec _ lo hi le_rfl hle hm

theorem lastTrueAux?_eq {p : ℕ → Option Bool} (fuel lo hi : ℕ)
    (h : ∀ i, lo < i → i ≤ hi → p i = some (q i)) :
    lastTrueAux? p fuel lo hi = some (lastTrueAux q fuel lo hi) := by
  induction fuel generalizing lo hi with
  | zero => rfl
  | succ fuel ih =>
    rw [lastTrueAux?, lastTrueAux]
    split_ifs with hlt
    · simp only
      rw [h _ (by omega) (by omega)]
      cases q ((lo + hi + 1) / 2)
      · exact ih _ _ fun i h1 h2 => h i h1 (by omega)
      · exact ih _ _ fun i h1 h2 => h i (by omega) h2
    · rfl

theorem lastTrue?_eq {p : ℕ → Option Bool}
    (h : ∀ i, lo < i → i ≤ hi → p i = some (q i)) :
    lastTrue? p lo hi = some (lastTrue q lo hi) :=
  lastTrueAux?_eq _ lo hi h

/-! ### Bracketing -/

/-- The loop of `bracket`, cut off after `fuel` rounds. -/
def bracketAux (p : ℕ → Bool) : ℕ → ℕ → ℕ → ℕ
  | 0, lo, _ => lo
  | fuel + 1, lo, hi =>
    if lo + 1 < hi then
      let mid := (hi + lo) / 2
      if p mid then bracketAux p fuel mid hi else bracketAux p fuel lo mid
    else lo

/-- The left end of adjacent indices between which `p` switches from true to false, searched
between `lo` (taken as true) and `hi` (taken as false). -/
def bracket (p : ℕ → Bool) (lo hi : ℕ) : ℕ := bracketAux p (hi - lo) lo hi

theorem bracketAux_spec (fuel lo hi : ℕ) (hf : hi - lo ≤ fuel) (hlt : lo < hi) :
    lo ≤ bracketAux p fuel lo hi ∧ bracketAux p fuel lo hi < hi ∧
      (bracketAux p fuel lo hi = lo ∨ p (bracketAux p fuel lo hi) = true) ∧
      (bracketAux p fuel lo hi + 1 = hi ∨ p (bracketAux p fuel lo hi + 1) = false) := by
  induction fuel generalizing lo hi with
  | zero => omega
  | succ fuel ih =>
    rw [bracketAux]
    split_ifs with hc
    · set mid := (hi + lo) / 2 with hmid
      have hb : lo < mid ∧ mid < hi := by omega
      simp only
      split_ifs with hp
      · obtain ⟨h1, h2, h3, h4⟩ := ih mid hi (by omega) hb.2
        refine ⟨by omega, h2, .inr ?_, h4⟩
        rcases h3 with h3 | h3
        · rw [h3]; exact hp
        · exact h3
      · obtain ⟨h1, h2, h3, h4⟩ := ih lo mid (by omega) hb.1
        refine ⟨h1, by omega, h3, .inr ?_⟩
        rcases h4 with h4 | h4
        · rw [h4]; simpa using hp
        · exact h4
    · exact ⟨le_rfl, hlt, .inl rfl, .inl (by omega)⟩

/-- **`bracket` ends on a switch of `p`** (no monotonicity is needed for that). -/
theorem bracket_spec (hlt : lo < hi) :
    lo ≤ bracket p lo hi ∧ bracket p lo hi < hi ∧
      (bracket p lo hi = lo ∨ p (bracket p lo hi) = true) ∧
      (bracket p lo hi + 1 = hi ∨ p (bracket p lo hi + 1) = false) :=
  bracketAux_spec _ lo hi le_rfl hlt

end Bisect
