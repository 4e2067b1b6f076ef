import Mathlib.Data.List.GetD
import Bourbon.Lib.Bisect
import Bourbon.Mod.Plr

/-!
# Learned index data

`mod/learned_index.cpp`: a `LearnedIndexData` is the model of one table file or of one level.
`learn` trains it on the collected keys, `getPosition` turns a key into the interval of positions
to search.  A level model is trained on the smallest and largest keys of the files of the level,
so position `2 * j` and `2 * j + 1` belong to file `j` and predictions are halved.

* `Fitted` is what `learn` establishes (`fitted_of_learn`);
* `Fitted.getPosition_eq` : `getPosition` reads the segment the key selects;
* `interval_contains_iff` : the exact condition under which an interval contains a position;
* `learn_getPosition_contains` : the interval of a trained key contains its position;
* `learn_getPosition_wellFormed` : what a model answers for any key;
* `learn_bounds_iff` : trained keys pass the check of the bounds, up to `2^63`.
-/

namespace Bourbon

open List

open Decimal

/-- The members of the class that training, prediction and the model files use. -/
structure LearnedIndexData where
  /-- Model error, from the configuration in force when the object was built. -/
  error : ℚ
  learned : Bool
  /-- The keys have been collected. -/
  filled : Bool
  is_level : Bool
  string_segments : List Segment
  min_key : ℕ
  max_key : ℕ
  size : ℕ
  string_keys : List Bytes
  num_entries_accumulated : List (ℕ × Bytes)
  level : ℕ
  cost : ℕ
  deriving DecidableEq

namespace LearnedIndexData

/-- The constructor, under the configured `file_model_error` and `level_model_error`. -/
def new (file_model_error level_model_error : ℕ) (level_model : Bool) : LearnedIndexData where
  error := if level_model then level_model_error else file_model_error
  learned := false
  filled := false
  is_level := level_model
  string_segments := []
  min_key := 0
  max_key := 0
  size := 0
  string_keys := []
  num_entries_accumulated := []
  level := 0
  cost := 0

/-- The last part of `GetPosition`: the interval around a prediction.  The conversion of a
negative double to `uint64_t` is undefined. -/
def interval (m : LearnedIndexData) (result : ℚ) : Option (ℕ × ℕ) :=
  if result + m.error ≤ -1 then none
  else
    let lower := if result - m.error > 0 then ⌊result - m.error⌋.toNat else 0
    let upper := ⌈result + m.error⌉.toNat
    if lower ≥ m.size then some (m.size, m.size)
    else some (lower, if upper < m.size then upper else m.size - 1)

/-- `GetPosition`; `none` stands for undefined behaviour. -/
def getPosition (m : LearnedIndexData) (target_x : Bytes) : Option (ℕ × ℕ) :=
  if m.string_segments.length ≤ 1 then none
  else
    let target_int := sliceToInteger target_x
    if target_int > m.max_key then some (m.size, m.size)
    else if target_int < m.min_key then some (m.size, m.size)
    else
      let left := Bisect.bracket
        (fun mid => !decide (target_int < (m.string_segments.getD mid ⟨0, 0, 0⟩).x))
        0 (m.string_segments.length - 1)
      let result := (m.string_segments.getD left ⟨0, 0, 0⟩).eval target_int
      m.interval (if m.is_level then result / 2 else result)

/-- `MaxPosition`, with the wrap-around of `uint64_t`. -/
def maxPosition (m : LearnedIndexData) : ℕ := (m.size + (2 ^ 64 - 1)) % 2 ^ 64

/-- `Learn`; `none` stands for a failed assertion or an exception. -/
def learn (awaiting : ℕ → Bool) (m : LearnedIndexData) : Option (LearnedIndexData × Bool) :=
  if m.string_keys = [] then none
  else
    let temp := toUint64 (atoll (m.string_keys.getLastD []))
    let m := { m with
      min_key := toUint64 (atoll (m.string_keys.headD []))
      max_key := toUint64 (atoll (m.string_keys.getLastD []))
      size := m.string_keys.length }
    match PLR.train m.error awaiting m.string_keys (!m.is_level) with
    | none => none
    | some segs =>
      if segs = [] then some (m, false)
      else some ({ m with string_segments := segs ++ [⟨temp, 0, 0⟩], learned := true }, true)

/-! ### Intervals -/

variable {m : LearnedIndexData} {r : ℚ} {p : ℕ}

theorem floor_le_natCast : ⌊r⌋.toNat ≤ p ↔ r < p + 1 := by
  rw [Int.toNat_le, Int.floor_le_iff, Int.cast_natCast]

theorem natCast_le_ceil (hr : -1 < r) : p ≤ ⌈r⌉.toNat ↔ (p : ℚ) - 1 < r := by
  have h0 : (0 : ℤ) ≤ ⌈r⌉ := by rw [Int.le_ceil_iff]; simpa using hr
  rw [Int.le_toNat h0, Int.le_ceil_iff, Int.cast_natCast]

/-- **An interval contains a position exactly if the prediction is close to it**, up to one
position of rounding on either side. -/
theorem interval_contains_iff (hp : p < m.size) :
    (∃ lower upper, m.interval r = some (lower, upper) ∧ lower ≤ p ∧ p ≤ upper ∧
      upper ≤ m.size - 1) ↔ r - m.error < p + 1 ∧ (p : ℚ) - 1 < r + m.error := by
  have hlow : (if r - m.error > 0 then ⌊r - m.error⌋.toNat else 0) ≤ p ↔ r - m.error < p + 1 := by
    have : (0 : ℚ) ≤ p := Nat.cast_nonneg p
    split_ifs with h
    · exact floor_le_natCast
    · exact ⟨fun _ => by linarith, fun _ => Nat.zero_le p⟩
  generalize hL : (if r - m.error > 0 then ⌊r - m.error⌋.toNat else 0) = L at hlow
  constructor
  · rintro ⟨lower, upper, h, hl, hu, -⟩
    simp only [interval, hL] at h
    split_ifs at h with hdef hsize hclip
    · simp only [Option.some.injEq, Prod.mk.injEq] at h
      omega
    · simp only [Option.some.injEq, Prod.mk.injEq] at h
      obtain ⟨rfl, rfl⟩ := h
      exact ⟨hlow.1 hl, (natCast_le_ceil (not_le.1 hdef)).1 hu⟩
    · simp only [Option.some.injEq, Prod.mk.injEq] at h
      obtain ⟨rfl, rfl⟩ := h
      refine ⟨hlow.1 hl, (natCast_le_ceil (not_le.1 hdef)).1 ?_⟩
      omega
  · rintro ⟨hl, hu⟩
    have hdef : ¬ r + m.error ≤ -1 := by
      have : (0 : ℚ) ≤ p := Nat.cast_nonneg p
      intro h; linarith
    have hlp := hlow.2 hl
    have hup := (natCast_le_ceil (not_le.1 hdef)).2 hu
    refine ⟨L, if ⌈r + m.error⌉.toNat < m.size then ⌈r + m.error⌉.toNat else m.size - 1, ?_, hlp,
      ?_, ?_⟩
    · simp only [interval, if_neg hdef, hL]
      rw [if_neg (by omega)]
    · split_ifs <;> omega
    · split_ifs <;> omega

/-- Above `-1 - error` an interval is defined; it is empty or a non-empty range of positions. -/
theorem interval_defined (he : 0 ≤ m.error) (hr : -1 < r + m.error) :
    ∃ lower upper, m.interval r = some (lower, upper) ∧
      (lower = m.size ∧ upper = m.size ∨ lower ≤ upper ∧ upper < m.size) := by
  have hle : (if r - m.error > 0 then ⌊r - m.error⌋.toNat else 0) ≤ ⌈r + m.error⌉.toNat := by
    split_ifs with h
    · rw [natCast_le_ceil hr]
      have := Int.floor_le (r - m.error)
      have h0 : (0 : ℤ) ≤ ⌊r - m.error⌋ := Int.floor_nonneg.2 h.le
      have hc : ((⌊r - m.error⌋.toNat : ℕ) : ℚ) = (⌊r - m.error⌋ : ℤ) := by
        exact_mod_cast congrArg (Int.cast : ℤ → ℚ) (Int.toNat_of_nonneg h0)
      rw [hc]; linarith
    · exact Nat.zero_le _
  generalize hL : (if r - m.error > 0 then ⌊r - m.error⌋.toNat else 0) = L at hle
  simp only [interval, if_neg (not_le.2 hr), hL]
  split_ifs with h1 h2
  · exact ⟨_, _, rfl, Or.inl ⟨rfl, rfl⟩⟩
  · exact ⟨_, _, rfl, Or.inr ⟨hle, h2⟩⟩
  · exact ⟨_, _, rfl, Or.inr ⟨by omega, by omega⟩⟩

variable {e lower upper : ℕ}

variable {key : Bytes}

theorem getPosition_cases
    (h : m.getPosition key = some (lower, upper)) :
    lower = m.size ∧ upper = m.size ∨ ∃ r, m.interval r = some (lower, upper) := by
  rw [getPosition] at h
  by_cases hseg : m.string_segments.length ≤ 1
  · rw [if_pos hseg] at h
    cases h
  by_cases hmax : sliceToInteger key > m.max_key
  · simp only [if_neg hseg, if_pos hmax, Option.some.injEq, Prod.mk.injEq] at h
    exact Or.inl ⟨h.1.symm, h.2.symm⟩
  by_cases hmin : sliceToInteger key < m.min_key
  · simp only [if_neg hseg, if_neg hmax, if_pos hmin, Option.some.injEq, Prod.mk.injEq] at h
    exact Or.inl ⟨h.1.symm, h.2.symm⟩
  simp only [if_neg hseg, if_neg hmax, if_neg hmin] at h
  exact Or.inr ⟨_, h⟩

/-- **Whatever a model answers** is the empty interval or a non-empty range of positions. -/
theorem getPosition_range (he : 0 ≤ m.error)
    (h : m.getPosition key = some (lower, upper)) :
    lower = m.size ∧ upper = m.size ∨ lower ≤ upper ∧ upper < m.size := by
  rcases getPosition_cases h with hexcluded | ⟨r, hr⟩
  · exact Or.inl hexcluded
  · have hdef : -1 < r + m.error := by
      by_contra hle
      rw [interval, if_pos (not_lt.1 hle)] at hr
      cases hr
    obtain ⟨l, u, hlu, hrange⟩ := interval_defined he hdef
    rw [hr, Option.some.injEq, Prod.mk.injEq] at hlu
    obtain ⟨rfl, rfl⟩ := hlu
    exact hrange

variable {segs : List Segment} {t : ℕ} {s : Segment}

/-- In a sorted list the bracketing search ends at the segment the key selects; the dummy last
segment only bounds the search. -/
theorem bracket_selects {d : Segment}
    (hs : segs.Pairwise fun a b => a.x < b.x) (h : Selects segs t s) :
    (segs ++ [d]).getD (Bisect.bracket
      (fun mid => !decide (t < ((segs ++ [d]).getD mid ⟨0, 0, 0⟩).x)) 0 segs.length)
      ⟨0, 0, 0⟩ = s := by
  obtain ⟨l, r, rfl, hx, hr⟩ := h
  have hget : ∀ i < (l ++ s :: r).length,
      (l ++ s :: r ++ [d]).getD i ⟨0, 0, 0⟩ = (l ++ s :: r).getD i ⟨0, 0, 0⟩ :=
    fun i hi => getD_append _ _ _ _ hi
  have hlen : l.length < (l ++ s :: r).length := by simp
  have hat : (l ++ s :: r).getD l.length ⟨0, 0, 0⟩ = s := by simp
  -- the segments up to `s` start at or before the key, those after it start behind the key
  have hbefore : ∀ i ≤ l.length, ((l ++ s :: r ++ [d]).getD i ⟨0, 0, 0⟩).x ≤ t := by
    intro i hi
    rw [hget i (by omega)]
    rcases hi.eq_or_lt with rfl | hlt
    · rw [hat]; exact hx
    · have := pairwise_iff_getElem.1 hs i l.length (by omega) hlen hlt
      rw [← getD_eq_getElem _ ⟨0, 0, 0⟩, ← getD_eq_getElem _ ⟨0, 0, 0⟩, hat] at this
      omega
  have hafter : ∀ i, l.length < i → i < (l ++ s :: r).length →
      t < ((l ++ s :: r ++ [d]).getD i ⟨0, 0, 0⟩).x := by
    intro i hi hlt
    rw [hget i hlt]
    refine hr _ ?_
    obtain ⟨k, rfl⟩ : ∃ k, i = l.length + (k + 1) := ⟨i - l.length - 1, by omega⟩
    have hk : k < r.length := by simp at hlt; omega
    rw [getD_append_right _ _ _ _ (by omega), Nat.add_sub_cancel_left, getD_cons_succ,
      getD_eq_getElem _ _ hk]
    exact getElem_mem hk
  obtain ⟨-, hlt, hlo, hhi⟩ := Bisect.bracket_spec
    (p := fun mid => !decide (t < ((l ++ s :: r ++ [d]).getD mid ⟨0, 0, 0⟩).x))
    (Nat.zero_lt_of_lt hlen)
  generalize Bisect.bracket _ _ _ = left at hlt hlo hhi ⊢
  simp only [Bool.not_eq_true', decide_eq_false_iff_not, not_lt, Bool.not_eq_false',
    decide_eq_true_eq] at hlo hhi
  have hleft : left = l.length := by
    rcases lt_trichotomy left l.length with h | h | h
    · have := hbefore (left + 1) h
      omega
    · exact h
    · have := hafter left h hlt
      omega
  rw [hleft, hget _ hlen, hat]

/-! ### Trained models -/

/-- The model is trained on `n` keys of increasing values `v 0`, `v 1`, …. -/
structure Fitted (m : LearnedIndexData) (v : ℕ → ℕ) (n : ℕ) : Prop where
  pos : 0 < n
  mono : ∀ a b, a < b → b < n → v a < v b
  segments : ∃ segs, m.string_segments = segs ++ [⟨v (n - 1), 0, 0⟩] ∧
    Trained v m.error (!m.is_level) n segs
  min_key : m.min_key = v 0
  max_key : m.max_key = v (n - 1)
  size : m.size = n

/-- The prediction for a key with value `t`, halved in a level model. -/
def predicted (m : LearnedIndexData) (s : Segment) (t : ℕ) : ℚ :=
  if m.is_level then s.eval t / 2 else s.eval t

variable {v : ℕ → ℕ} {n : ℕ}

theorem Fitted.exists_selects (h : m.Fitted v n)
    (ht : Trained v m.error (!m.is_level) n segs) (h0 : v 0 ≤ t) :
    ∃ s, Selects segs t s := by
  obtain ⟨s, hs, -⟩ := ht.covers 0 h.pos
  refine Bourbon.exists_selects ⟨s, hs.mem, ?_⟩
  obtain ⟨l, r, -, hx, -⟩ := hs
  exact hx.trans h0

/-- **Inside the bounds, `getPosition` reads the segment that the key selects.** -/
theorem Fitted.getPosition_eq (h : m.Fitted v n)
    (hsegs : m.string_segments = segs ++ [⟨v (n - 1), 0, 0⟩])
    (ht : Trained v m.error (!m.is_level) n segs)
    (h0 : v 0 ≤ sliceToInteger key) (h1 : sliceToInteger key ≤ v (n - 1))
    (hs : Selects segs (sliceToInteger key) s) :
    m.getPosition key = m.interval (m.predicted s (sliceToInteger key)) := by
  have hlen : 0 < segs.length := length_pos_of_mem hs.mem
  have hb := bracket_selects (d := ⟨v (n - 1), 0, 0⟩) ht.sorted hs
  have hlength : m.string_segments.length - 1 = segs.length := by simp [hsegs]
  rw [getPosition, if_neg (by omega), if_neg (by rw [h.max_key]; omega),
    if_neg (by rw [h.min_key]; omega)]
  simp only [hlength]
  rw [hsegs, hb]
  rfl

theorem Fitted.length_segments (h : m.Fitted v n) : ¬ m.string_segments.length ≤ 1 := by
  obtain ⟨segs, hsegs, ht⟩ := h.segments
  obtain ⟨s, hs, -⟩ := ht.covers 0 h.pos
  have hlen : 0 < segs.length := length_pos_of_mem hs.mem
  rw [hsegs, length_append, length_singleton]
  omega

theorem Fitted.getPosition_of_lt (h : m.Fitted v n)
    (h0 : sliceToInteger key < v 0 ∨ v (n - 1) < sliceToInteger key) :
    m.getPosition key = some (n, n) := by
  rw [getPosition, if_neg h.length_segments, h.max_key, h.min_key, h.size]
  by_cases hmax : sliceToInteger key > v (n - 1)
  · rw [if_pos hmax]
  · rw [if_neg hmax, if_pos (by omega)]

theorem predicted_ge (he : 0 ≤ m.error)
    (ht : Trained v m.error (!m.is_level) n segs) (hs : Selects segs t s) :
    0 ≤ m.predicted s t + m.error := by
  obtain ⟨hk, hstart⟩ := ht.rises s hs.mem
  obtain ⟨l, r, -, hx, -⟩ := hs
  have hx' : (s.x : ℚ) ≤ t := by exact_mod_cast hx
  have hle : s.eval s.x ≤ s.eval t := by
    have := mul_le_mul_of_nonneg_right hx' hk
    simp only [Segment.eval]; linarith
  rw [predicted]
  split_ifs <;> linarith

/-- **A trained model answers every key**: with an empty interval or a range of positions. -/
theorem Fitted.getPosition_defined (h : m.Fitted v n) (he : 0 ≤ m.error) (key : Bytes) :
    ∃ lower upper, m.getPosition key = some (lower, upper) ∧
      (lower = n ∧ upper = n ∨ lower ≤ upper ∧ upper < n) := by
  by_cases hout : sliceToInteger key < v 0 ∨ v (n - 1) < sliceToInteger key
  · exact ⟨n, n, h.getPosition_of_lt hout, Or.inl ⟨rfl, rfl⟩⟩
  · rw [not_or, not_lt, not_lt] at hout
    obtain ⟨segs, hsegs, ht⟩ := h.segments
    obtain ⟨s, hs⟩ := h.exists_selects ht hout.1
    rw [h.getPosition_eq hsegs ht hout.1 hout.2 hs, ← h.size]
    exact interval_defined he (by linarith [predicted_ge he ht hs])

/-- The segment at which the search of `GetPosition` ends. -/
def searchedSegment (m : LearnedIndexData) (target_int : ℕ) : Segment :=
  m.string_segments.getD (Bisect.bracket
    (fun mid => !decide (target_int < (m.string_segments.getD mid ⟨0, 0, 0⟩).x))
    0 (m.string_segments.length - 1)) ⟨0, 0, 0⟩

/-- **Inside the bounds the search ends at a segment that starts at or before the key**, whose
prediction is not below `-error`. -/
theorem Fitted.searchedSegment_spec (h : m.Fitted v n) (he : 0 ≤ m.error) (h0 : v 0 ≤ t) :
    (m.searchedSegment t).x ≤ t ∧ 0 ≤ m.predicted (m.searchedSegment t) t + m.error := by
  obtain ⟨segs, hsegs, ht⟩ := h.segments
  obtain ⟨s, hs⟩ := h.exists_selects ht h0
  have hsearch : m.searchedSegment t = s := by
    rw [searchedSegment, hsegs, length_append, length_singleton, Nat.add_sub_cancel]
    exact bracket_selects ht.sorted hs
  rw [hsearch]
  obtain ⟨l, r, -, hx, -⟩ := id hs
  exact ⟨hx, predicted_ge he ht hs⟩

/-- **A file model predicts the position of every key it was trained on.** -/
theorem Fitted.file_contains (h : m.Fitted v n) (hfile : m.is_level = false) {p : ℕ}
    (hp : p < n) (hkey : sliceToInteger key = v p) :
    ∃ lower upper, m.getPosition key = some (lower, upper) ∧
      lower ≤ p ∧ p ≤ upper ∧ upper ≤ m.size - 1 := by
  obtain ⟨segs, hsegs, ht⟩ := h.segments
  obtain ⟨s, hs, hcov⟩ := ht.covers p hp
  have hle : ∀ a b, a ≤ b → b < n → v a ≤ v b := by
    intro a b hab hb
    rcases hab.eq_or_lt with rfl | hlt
    · exact le_rfl
    · exact (h.mono a b hlt hb).le
  rw [h.getPosition_eq hsegs ht (by rw [hkey]; exact hle 0 p (by omega) hp)
    (by rw [hkey]; exact hle p _ (by omega) (by omega)) (by rw [hkey]; exact hs), hkey]
  refine (interval_contains_iff (by rw [h.size]; exact hp)).2 ?_
  obtain ⟨h1, h2⟩ := abs_le.1 hcov
  rw [predicted, hfile]
  simp only [Bool.false_eq_true, if_false]
  constructor <;> linarith

/-! ### Training -/

/-- The value of the key at position `i`. -/
def keyValue (keys : List Bytes) (i : ℕ) : ℕ := value (keys.getD i [])

/-- Keys a model can be trained on: decimal numbers below `2^63` in increasing order. -/
structure KeyList (keys : List Bytes) : Prop where
  numeral : ∀ k ∈ keys, IsNumeral k ∧ value k < 2 ^ 63
  sorted : keys.Pairwise fun a b => value a < value b

variable {keys : List Bytes} {awaiting : ℕ → Bool} {m' : LearnedIndexData}

variable {i : ℕ}

theorem KeyList.getD (h : KeyList keys) (hi : i < keys.length) :
    IsNumeral (keys.getD i []) ∧ value (keys.getD i []) < 2 ^ 63 := by
  rw [getD_eq_getElem _ _ hi]
  exact h.numeral _ (getElem_mem hi)

theorem KeyList.keyValue_lt (h : KeyList keys) (a b : ℕ) (hab : a < b) (hb : b < keys.length) :
    keyValue keys a < keyValue keys b := by
  have := pairwise_iff_getElem.1 h.sorted a b (by omega) hb hab
  rwa [keyValue, keyValue, getD_eq_getElem _ _ (hab.trans hb), getD_eq_getElem _ _ hb]

theorem KeyList.sliceToInteger_getD (h : KeyList keys) (hi : i < keys.length) :
    sliceToInteger (keys.getD i []) = keyValue keys i := by
  obtain ⟨hnum, hlt⟩ := h.getD hi
  rw [sliceToInteger_eq hnum.2, keyValue, Nat.mod_eq_of_lt (by omega)]

theorem KeyList.length_le {keys : List Bytes} (h : KeyList keys) : keys.length ≤ 2 ^ 63 := by
  have hle : ∀ i, i < keys.length → i ≤ keyValue keys i := by
    intro i
    induction i with
    | zero => exact fun _ => Nat.zero_le _
    | succ i ih =>
      intro hi
      have := h.keyValue_lt i (i + 1) (Nat.lt_succ_self i) hi
      have := ih (by omega)
      omega
  by_contra hlt
  have h1 := hle (2 ^ 63) (by omega)
  have h2 : keyValue keys (2 ^ 63) < 2 ^ 63 := (h.getD (by omega)).2
  omega

theorem learn_some {success : Bool} (h : m.learn awaiting = some (m', success)) :
    m.string_keys ≠ [] ∧ ∃ segs, PLR.train m.error awaiting m.string_keys (!m.is_level) =
        some segs ∧ success = decide (segs ≠ []) ∧
      m' = { m with
        min_key := toUint64 (atoll (m.string_keys.headD []))
        max_key := toUint64 (atoll (m.string_keys.getLastD []))
        size := m.string_keys.length
        string_segments := if segs = [] then m.string_segments
          else segs ++ [⟨toUint64 (atoll (m.string_keys.getLastD [])), 0, 0⟩]
        learned := m.learned || success } := by
  rw [learn] at h
  split_ifs at h with hnil
  cases htrain : PLR.train m.error awaiting m.string_keys (!m.is_level) with
  | none =>
    simp only [htrain] at h
    cases h
  | some segs =>
    simp only [htrain] at h
    refine ⟨hnil, segs, rfl, ?_⟩
    by_cases hsegs : segs = []
    · rw [if_pos hsegs, Option.some.injEq, Prod.mk.injEq] at h
      obtain ⟨rfl, rfl⟩ := h
      simp only [hsegs, ne_eq, not_true_eq_false, decide_false, if_true, Bool.or_false, and_self]
    · rw [if_neg hsegs, Option.some.injEq, Prod.mk.injEq] at h
      obtain ⟨rfl, rfl⟩ := h
      simp only [hsegs, ne_eq, not_false_eq_true, decide_true, if_false, Bool.or_true, and_self]

theorem learn_true (h : m.learn awaiting = some (m', true)) :
    m.string_keys ≠ [] ∧ ∃ segs, PLR.train m.error awaiting m.string_keys (!m.is_level) =
        some segs ∧ segs ≠ [] ∧
      m' = { m with
        min_key := toUint64 (atoll (m.string_keys.getD 0 []))
        max_key := toUint64 (atoll (m.string_keys.getD (m.string_keys.length - 1) []))
        size := m.string_keys.length
        string_segments := segs ++ [⟨toUint64 (atoll (m.string_keys.getD
          (m.string_keys.length - 1) [])), 0, 0⟩]
        learned := true } := by
  have hfirst : m.string_keys.headD [] = m.string_keys.getD 0 [] := by
    cases m.string_keys <;> rfl
  have hlast : m.string_keys.getLastD [] = m.string_keys.getD (m.string_keys.length - 1) [] := by
    rw [getLastD_eq_getLast?, List.getLast?_eq_getElem?, getD_eq_getElem?_getD]
  obtain ⟨hnil, segs, htrain, hsuccess, rfl⟩ := learn_some h
  have hsegs : segs ≠ [] := of_decide_eq_true hsuccess.symm
  refine ⟨hnil, segs, htrain, hsegs, ?_⟩
  rw [if_neg hsegs, Bool.or_true, hfirst, hlast]

/-- **Successful training fits the model to its keys.** -/
theorem fitted_of_learn (hkeys : KeyList m.string_keys) (he : 0 < m.error)
    (h : m.learn awaiting = some (m', true)) :
    m'.Fitted (keyValue m.string_keys) m.string_keys.length ∧ m'.learned = true ∧
      m'.error = m.error ∧ m'.is_level = m.is_level ∧ m'.string_keys = m.string_keys := by
  obtain ⟨hnil, segs, htrain, hsegs, rfl⟩ := learn_true h
  have hpos : 0 < m.string_keys.length := length_pos_iff.2 hnil
  have hbound : ∀ i < m.string_keys.length,
      toUint64 (atoll (m.string_keys.getD i [])) = keyValue m.string_keys i := fun i hi =>
    atoll_eq (hkeys.getD hi).1 (hkeys.getD hi).2
  have hlast := hbound (m.string_keys.length - 1) (by omega)
  refine ⟨⟨hpos, hkeys.keyValue_lt, ⟨segs, by rw [hlast], ?_⟩, hbound 0 hpos, hlast, rfl⟩, rfl, rfl,
    rfl, rfl⟩
  refine PLR.trained_of_train he (fun k hk => ?_) hkeys.keyValue_lt htrain hsegs
  obtain ⟨hnum, hlt⟩ := hkeys.getD hk
  rw [← getD_eq_getElem _ [] hk, stoull_eq hnum (by omega), keyValue]

/-- **Error bound of a file model.**  After successful training, the interval of a trained key
contains the position of the key. -/
theorem learn_getPosition_contains (m m' : LearnedIndexData) (awaiting : ℕ → Bool) (e : ℕ)
    (he : 1 ≤ e) (herror : m.error = e) (hfile : m.is_level = false)
    (hkeys : KeyList m.string_keys) (hlearn : m.learn awaiting = some (m', true)) (i : ℕ)
    (hi : i < m.string_keys.length) :
    ∃ lower upper, m'.getPosition m.string_keys[i] = some (lower, upper) ∧
      lower ≤ i ∧ i ≤ upper ∧ upper ≤ m'.size - 1 := by
  have he' : (1 : ℚ) ≤ m.error := by rw [herror]; exact_mod_cast he
  obtain ⟨hfit, -, -, hlev, -⟩ := fitted_of_learn hkeys (by linarith) hlearn
  refine hfit.file_contains (hlev.trans hfile) hi ?_
  rw [← getD_eq_getElem _ [] hi, hkeys.sliceToInteger_getD hi]

/-- A file model filled with the keys `1, 2, 3, 4, 9`. -/
def fiveKeys : LearnedIndexData :=
  { new 1 1 false with string_keys := [[49], [50], [51], [52], [57]] }

/-- The model after training: two segments, the last key starts the second. -/
def fiveKeysLearned : LearnedIndexData :=
  { fiveKeys with
    learned := true, string_segments := [⟨1, 1, -1⟩, ⟨9, 0, 4⟩, ⟨9, 0, 0⟩]
    min_key := 1, max_key := 9, size := 5 }

theorem learn_fiveKeys : fiveKeys.learn (fun _ => false) = some (fiveKeysLearned, true) := by
  decide +kernel

theorem keyList_fiveKeys : KeyList fiveKeys.string_keys := ⟨by decide +kernel, by decide +kernel⟩

theorem learn_getPosition_contains_two_segments :
    fiveKeys.learn (fun _ => false) = some (fiveKeysLearned, true) ∧
      ∃ lower upper, fiveKeysLearned.getPosition [57] = some (lower, upper) ∧
        lower ≤ 4 ∧ 4 ≤ upper ∧ upper ≤ fiveKeysLearned.size - 1 :=
  ⟨learn_fiveKeys, learn_getPosition_contains fiveKeys _ _ 1 le_rfl (by decide +kernel) rfl
    keyList_fiveKeys learn_fiveKeys 4 (by decide)⟩

/-- **Predictions are well formed.**  A trained model answers every key with the empty interval or a
range of positions; inside the bounds the search ends at a segment that starts at or before the key,
and what `GetPosition` converts to unsigned numbers is not negative. -/
theorem learn_getPosition_wellFormed (m m' : LearnedIndexData) (awaiting : ℕ → Bool) (e : ℕ)
    (he : 1 ≤ e) (herror : m.error = e) (hkeys : KeyList m.string_keys)
    (hlearn : m.learn awaiting = some (m', true)) (key : Bytes) :
    let t := sliceToInteger key
    let s := m'.searchedSegment t
    let result := m'.predicted s t
    (∃ lower upper, m'.getPosition key = some (lower, upper) ∧
      (lower = m'.size ∧ upper = m'.size ∨ lower ≤ upper ∧ upper < m'.size)) ∧
    (m'.min_key ≤ t → t ≤ m'.max_key →
      m'.getPosition key = m'.interval result ∧ s.x ≤ t ∧
      0 ≤ ⌈result + m'.error⌉ ∧ (0 < result - m'.error → 0 ≤ ⌊result - m'.error⌋)) := by
  intro t s result
  have he' : (1 : ℚ) ≤ m.error := by rw [herror]; exact_mod_cast he
  obtain ⟨hfit, -, herr, -, -⟩ := fitted_of_learn hkeys (by linarith) hlearn
  have hpos : 0 ≤ m'.error := by rw [herr]; linarith
  constructor
  · rw [hfit.size]
    exact hfit.getPosition_defined hpos key
  · intro hmin hmax
    rw [hfit.min_key] at hmin
    obtain ⟨hx, hge⟩ := hfit.searchedSegment_spec hpos hmin
    refine ⟨?_, hx, Int.ceil_nonneg hge, fun h => Int.floor_nonneg.2 h.le⟩
    rw [getPosition, if_neg hfit.length_segments, if_neg (not_lt.2 hmax), if_neg]
    · rfl
    · rw [hfit.min_key]
      exact not_lt.2 hmin

/-- The key `7` is not among `1, 2, 3, 4, 9`; the first segment predicts the position 6 for it. -/
theorem learn_getPosition_wellFormed_gap :
    let m := fiveKeysLearned
    fiveKeys.learn (fun _ => false) = some (m, true) ∧ m.searchedSegment 7 = ⟨1, 1, -1⟩ ∧
      m.getPosition [55] = some (5, 5) ∧
      ∃ lower upper, m.getPosition [55] = some (lower, upper) ∧
        (lower = m.size ∧ upper = m.size ∨ lower ≤ upper ∧ upper < m.size) :=
  ⟨learn_fiveKeys, by decide +kernel, by decide +kernel,
    (learn_getPosition_wellFormed fiveKeys _ _ 1 le_rfl (by decide +kernel) keyList_fiveKeys
      learn_fiveKeys [55]).1⟩

/-- **Trained keys pass the check of the bounds** exactly if the last key is below `2^63`: `atoll`,
which gives the bounds, saturates there, but `stoull` and `SliceToInteger` go up to `2^64`. -/
theorem learn_bounds_iff (m m' : LearnedIndexData) (awaiting : ℕ → Bool) (len : ℕ)
    (hkeys : ∀ k ∈ m.string_keys, IsKey len k ∧ value k < 2 ^ 64)
    (hsorted : m.string_keys.Pairwise fun a b => a < b)
    (hlearn : m.learn awaiting = some (m', true)) :
    (∀ k ∈ m.string_keys, m'.min_key ≤ sliceToInteger k ∧ sliceToInteger k ≤ m'.max_key) ↔
      ∀ k ∈ m.string_keys.getLast?, value k < 2 ^ 63 := by
  obtain ⟨hnil, segs, -, -, rfl⟩ := learn_true hlearn
  have hpos : 0 < m.string_keys.length := length_pos_iff.2 hnil
  have hvalue : ∀ k ∈ m.string_keys, sliceToInteger k = value k ∧
      toUint64 (atoll k) = min (value k) (2 ^ 63 - 1) := by
    intro k hk
    obtain ⟨hkey, hlt⟩ := hkeys k hk
    exact ⟨by rw [sliceToInteger_eq hkey.1.2, Nat.mod_eq_of_lt hlt], toUint64_atoll hkey.1⟩
  -- the values from the first key to the last
  have hle : ∀ i j, i ≤ j → ∀ hj : j < m.string_keys.length,
      value (m.string_keys.getD i []) ≤ value (m.string_keys.getD j []) := by
    intro i j hij hj
    rcases hij.eq_or_lt with rfl | hlt
    · exact le_rfl
    · have hlt' := pairwise_iff_getElem.1 hsorted i j (hlt.trans hj) hj hlt
      rw [getD_eq_getElem _ _ (hlt.trans hj), getD_eq_getElem _ _ hj]
      exact (((hkeys _ (getElem_mem _)).1.lt_iff (hkeys _ (getElem_mem _)).1).1 hlt').le
  have hmem : ∀ i < m.string_keys.length, m.string_keys.getD i [] ∈ m.string_keys := by
    intro i hi
    rw [getD_eq_getElem _ _ hi]
    exact getElem_mem hi
  have hend : m.string_keys.length - 1 < m.string_keys.length := by omega
  have hlast : m.string_keys.getLast? =
      some (m.string_keys.getD (m.string_keys.length - 1) []) := by
    rw [List.getLast?_eq_getElem?, List.getElem?_eq_getElem hend, getD_eq_getElem _ _ hend]
  simp only [(hvalue _ (hmem 0 hpos)).2, (hvalue _ (hmem _ hend)).2, hlast, Option.mem_some_iff,
    forall_eq']
  constructor
  · intro hall
    have := (hall _ (hmem _ hend)).2
    rw [(hvalue _ (hmem _ hend)).1] at this
    omega
  · intro hlt k hk
    obtain ⟨i, hi, rfl⟩ := getElem_of_mem hk
    have h1 := hle 0 i (Nat.zero_le i) hi
    have h2 := hle i (m.string_keys.length - 1) (by omega) hend
    rw [getD_eq_getElem _ _ hi] at h1 h2
    rw [(hvalue _ hk).1]
    omega

theorem learn_bounds_iff_five_keys :
    let m := fiveKeysLearned
    fiveKeys.learn (fun _ => false) = some (m, true) ∧
      ((∀ k ∈ fiveKeys.string_keys, m.min_key ≤ sliceToInteger k ∧ sliceToInteger k ≤ m.max_key) ↔
        ∀ k ∈ fiveKeys.string_keys.getLast?, value k < 2 ^ 63) :=
  ⟨learn_fiveKeys,
    learn_bounds_iff fiveKeys _ _ 1 (by decide +kernel) (by decide +kernel) learn_fiveKeys⟩

/-- The keys `0000000000000000001` and `9223372036854775808`, which is `2^63`. -/
def wideKeys : List Bytes :=
  [[48, 48, 48, 48, 48, 48, 48, 48, 48, 48, 48, 48, 48, 48, 48, 48, 48, 48, 49],
    [57, 50, 50, 51, 51, 55, 50, 48, 51, 54, 56, 53, 52, 55, 55, 53, 56, 48, 56]]

/-- The last key is trained on and rejected by the bounds. -/
theorem learn_bounds_saturate :
    let m := { new 1 1 false with string_keys := wideKeys }
    (∀ k ∈ wideKeys, IsKey 19 k ∧ value k < 2 ^ 64) ∧ wideKeys.Pairwise (fun a b => a < b) ∧
    ∃ m', m.learn (fun _ => false) = some (m', true) ∧ m'.max_key = 2 ^ 63 - 1 ∧
      sliceToInteger (wideKeys.getD 1 []) = 2 ^ 63 ∧
      m'.getPosition (wideKeys.getD 1 []) = some (2, 2) := by
  intro m
  refine ⟨by decide +kernel, by decide +kernel, _, rfl, by decide +kernel, by decide +kernel,
    by decide +kernel⟩

end LearnedIndexData

end Bourbon
