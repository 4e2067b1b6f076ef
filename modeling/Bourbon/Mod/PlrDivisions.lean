import Bourbon.Db.LevelModel
import Bourbon.Db.TableCache

/-!
# Divisions of the training

`get_slope` and `get_intersetction` of `mod/plr.cpp` divide by differences of keys and of slopes.
The divisors of a run of `PLR::train` are collected in the order in which they are used; the
constant divisor of `current_segment` is left out.

* `GreedyPLR.Through` : both bounds of the cone pass through its apex, and the first point of a
  segment is the point before the second one;
* `PLR.divisors_ne_zero_iff` : no divisor is zero exactly if the error is not zero and the first two
  keys of every segment differ;
* `PLR.divisors_ne_zero` : in particular if neighbouring keys differ.
-/

namespace Bourbon

open Decimal

/-- The divisor of `getSlope`. -/
def slopeDivisor (p1 p2 : Point) : ℚ := p2.x - p1.x

/-- The divisor of `getIntersetction`, for both coordinates. -/
def intersectionDivisor (l1 l2 : Line) : ℚ := l1.a - l2.a

namespace GreedyPLR

/-- The divisors of `setup`. -/
def setupDivisors (g : GreedyPLR) : List ℚ :=
  [slopeDivisor (getUpperBound g.s0 g.gamma) (getLowerBound g.s1 g.gamma),
    slopeDivisor (getLowerBound g.s0 g.gamma) (getUpperBound g.s1 g.gamma),
    intersectionDivisor g.setup.1.rho_upper g.setup.1.rho_lower]

/-- The point leaves the cone of the open segment. -/
def leaves (g : GreedyPLR) (pt : Point) : Bool :=
  !(isAbove pt g.rho_lower && isBelow pt g.rho_upper)

/-- The divisors of `process__`. -/
def readyDivisors (g : GreedyPLR) (pt : Point) (file : Bool) : List ℚ :=
  if g.leaves pt then
    if !file && ⌊pt.y⌋.toNat % 2 ^ 32 % 2 == 1 then
      { g with s0 := g.last_pt, s1 := pt }.setupDivisors
    else []
  else
    let s_upper := getUpperBound pt g.gamma
    let s_lower := getLowerBound pt g.gamma
    (if isBelow s_upper g.rho_upper then [slopeDivisor g.sint s_upper] else []) ++
      if isAbove s_lower g.rho_lower then [slopeDivisor g.sint s_lower] else []

/-- The divisors of `process`. -/
def processDivisors (g : GreedyPLR) (pt : Point) (file : Bool) : List ℚ :=
  match g.state with
  | .need1 => { g with s1 := pt }.setupDivisors
  | .ready => g.readyDivisors pt file
  | _ => []

/-- The point is the second one of a new segment, which starts at the point before it. -/
def startsSegment (g : GreedyPLR) (pt : Point) (file : Bool) : Bool :=
  match g.state with
  | .need1 => true
  | .ready => g.leaves pt && !file && ⌊pt.y⌋.toNat % 2 ^ 32 % 2 == 1
  | _ => false

end GreedyPLR

namespace PLR

/-- The divisors of the loop of `train` from position `i` on. -/
def loopDivisors (awaiting : ℕ → Bool) (file : Bool) : List Bytes → ℕ → GreedyPLR → List ℚ
  | [], _, _ => []
  | key :: keys, i, plr =>
    match stoull key with
    | none => []
    | some x =>
      plr.processDivisors ⟨x, i⟩ file ++
        if !file && (i + 1) % 10 == 0 && awaiting i then []
        else loopDivisors awaiting file keys (i + 1) (plr.process ⟨x, i⟩ file).1

/-- The divisors of `PLR::train`. -/
def divisors (gamma : ℚ) (awaiting : ℕ → Bool) (keys : List Bytes) (file : Bool) : List ℚ :=
  loopDivisors awaiting file keys 0 (GreedyPLR.new gamma)

/-- From position `i` on, the first two keys of every segment differ, and the error is not zero if
there is a segment of two keys. -/
def SegmentsOpen (awaiting : ℕ → Bool) (file : Bool) : List Bytes → ℕ → GreedyPLR → Prop
  | [], _, _ => True
  | key :: keys, i, plr =>
    match stoull key with
    | none => True
    | some x =>
      (plr.startsSegment ⟨x, i⟩ file = true → plr.gamma ≠ 0 ∧ (x : ℚ) ≠ plr.last_pt.x) ∧
        ((!file && (i + 1) % 10 == 0 && awaiting i) = true ∨
          SegmentsOpen awaiting file keys (i + 1) (plr.process ⟨x, i⟩ file).1)

end PLR

/-! ### One point -/

namespace GreedyPLR

variable {g : GreedyPLR} {pt : Point} {file : Bool}

/-- A segment that needs a second point starts at the point before; the bounds of an open segment
pass through the apex. -/
structure Through (g : GreedyPLR) : Prop where
  start : g.state = .need1 → g.s0 = g.last_pt
  lower : g.state = .ready → g.rho_lower.b = g.sint.y - g.rho_lower.a * g.sint.x
  upper : g.state = .ready → g.rho_upper.b = g.sint.y - g.rho_upper.a * g.sint.x

theorem through_need1 (hst : g.state = .need1) (hs : g.s0 = g.last_pt) : g.Through where
  start := fun _ => hs
  lower := fun hr => absurd (hst.symm.trans hr) (by decide)
  upper := fun hr => absurd (hst.symm.trans hr) (by decide)

theorem through_ready (hst : g.state = .ready)
    (hl : g.rho_lower.b = g.sint.y - g.rho_lower.a * g.sint.x)
    (hu : g.rho_upper.b = g.sint.y - g.rho_upper.a * g.sint.x) : g.Through where
  start := fun hn => absurd (hst.symm.trans hn) (by decide)
  lower := fun _ => hl
  upper := fun _ => hu

theorem through_new (gamma : ℚ) : (GreedyPLR.new gamma).Through where
  start := fun h => by cases h
  lower := fun h => by cases h
  upper := fun h => by cases h

theorem setup_slopes (g : GreedyPLR) :
    intersectionDivisor g.setup.1.rho_upper g.setup.1.rho_lower =
      4 * g.gamma / (g.s1.x - g.s0.x) := by
  simp only [intersectionDivisor, setup, Line.lineCheck, Bool.not_true, Bool.false_eq_true,
    if_false, getLine, getSlope, getUpperBound, getLowerBound]
  ring

theorem setupDivisors_ne_zero_iff (g : GreedyPLR) :
    (∀ d ∈ g.setupDivisors, d ≠ 0) ↔ g.gamma ≠ 0 ∧ g.s1.x ≠ g.s0.x := by
  simp only [setupDivisors, List.forall_mem_cons, List.not_mem_nil, false_imp_iff, implies_true,
    and_true, slopeDivisor, getUpperBound, getLowerBound, setup_slopes, sub_ne_zero]
  constructor
  · rintro ⟨hx, -, hdiv⟩
    refine ⟨fun hγ => hdiv ?_, hx⟩
    rw [hγ, mul_zero, zero_div]
  · rintro ⟨hγ, hx⟩
    exact ⟨hx, hx, div_ne_zero (mul_ne_zero four_ne_zero hγ) (sub_ne_zero.2 hx)⟩

/-- **The bounds that `setup` computes pass through the apex.** -/
theorem setup_through (hγ : g.gamma ≠ 0) (hx : g.s1.x ≠ g.s0.x) :
    g.setup.1.rho_lower.b = g.setup.1.sint.y - g.setup.1.rho_lower.a * g.setup.1.sint.x ∧
      g.setup.1.rho_upper.b = g.setup.1.sint.y - g.setup.1.rho_upper.a * g.setup.1.sint.x := by
  have hd : g.setup.1.rho_upper.a - g.setup.1.rho_lower.a ≠ 0 :=
    ((setupDivisors_ne_zero_iff g).2 ⟨hγ, hx⟩) _ (by simp [setupDivisors, intersectionDivisor])
  have hsint : g.setup.1.sint = getIntersetction g.setup.1.rho_upper g.setup.1.rho_lower := rfl
  rw [hsint]
  simp only [getIntersetction]
  constructor <;> field_simp <;> ring

theorem Through.ne_apex (h : g.Through) (hst : g.state = .ready) (hin : g.leaves pt = false) :
    pt.x ≠ g.sint.x := by
  intro hx
  rw [leaves, Bool.not_eq_false', Bool.and_eq_true, isAbove, isBelow, decide_eq_true_eq,
    decide_eq_true_eq, h.lower hst, h.upper hst, hx] at hin
  linarith [hin.1, hin.2]

/-- **A point divides by zero** exactly if it is the second one of a segment and has the key of the
first one, or if the error is zero. -/
theorem Through.processDivisors_iff (h : g.Through) (pt : Point) (file : Bool) :
    (∀ d ∈ g.processDivisors pt file, d ≠ 0) ↔
      (g.startsSegment pt file = true → g.gamma ≠ 0 ∧ pt.x ≠ g.last_pt.x) := by
  cases hst : g.state with
  | need2 => simp [processDivisors, startsSegment, hst]
  | finished => simp [processDivisors, startsSegment, hst]
  | need1 =>
    simp only [processDivisors, startsSegment, hst, setupDivisors_ne_zero_iff, h.start hst,
      true_imp_iff]
  | ready =>
    simp only [processDivisors, startsSegment, hst, readyDivisors]
    by_cases hleave : g.leaves pt = true
    · by_cases hodd : (!file && ⌊pt.y⌋.toNat % 2 ^ 32 % 2 == 1) = true
      · simp only [hleave, hodd, Bool.true_and, if_true, setupDivisors_ne_zero_iff, true_imp_iff]
      · simp only [hleave, hodd, Bool.true_and, if_true, Bool.false_eq_true, if_false,
          List.not_mem_nil, false_imp_iff, implies_true]
    · have hin : g.leaves pt = false := by simpa using hleave
      have hne : pt.x - g.sint.x ≠ 0 := sub_ne_zero.2 (h.ne_apex hst hin)
      simp only [hin, Bool.false_and, Bool.false_eq_true, if_false, false_imp_iff, iff_true,
        List.mem_append]
      rintro d (hd | hd)
      · split_ifs at hd
        · rw [List.mem_singleton.1 hd]
          exact hne
        · cases hd
      · split_ifs at hd
        · rw [List.mem_singleton.1 hd]
          exact hne
        · cases hd

/-- **A point that does not divide by zero keeps the bounds through the apex.** -/
theorem Through.process (h : g.Through)
    (hok : g.startsSegment pt file = true → g.gamma ≠ 0 ∧ pt.x ≠ g.last_pt.x) :
    (g.process pt file).1.Through ∧ (g.process pt file).1.gamma = g.gamma ∧
      (g.process pt file).1.last_pt = pt := by
  cases hst : g.state with
  | need2 =>
    have hgo : (g.process pt file).1 = { g with s0 := pt, state := .need1, last_pt := pt } := by
      simp only [GreedyPLR.process, hst]
    rw [hgo]
    exact ⟨through_need1 rfl rfl, rfl, rfl⟩
  | finished =>
    have hgo : (g.process pt file).1 = { g with last_pt := pt } := by
      simp only [GreedyPLR.process, hst]
    rw [hgo]
    refine ⟨⟨fun hr => ?_, fun hr => ?_, fun hr => ?_⟩, rfl, rfl⟩ <;>
      exact absurd (hst.symm.trans hr) (by decide)
  | need1 =>
    obtain ⟨hγ, hx⟩ := hok (by rw [startsSegment, hst])
    obtain ⟨hl, hu⟩ := setup_through (g := { g with s1 := pt }) hγ (by rw [h.start hst]; exact hx)
    have hgo : (g.process pt file).1 =
        { ({ g with s1 := pt } : GreedyPLR).setup.1 with state := .ready, last_pt := pt } := by
      simp only [GreedyPLR.process, hst]
      rfl
    rw [hgo]
    exact ⟨through_ready rfl hl hu, rfl, rfl⟩
  | ready =>
    by_cases hleave : g.leaves pt = true
    · have hout : (!(isAbove pt g.rho_lower && isBelow pt g.rho_upper)) = true := hleave
      by_cases hodd : (!file && ⌊pt.y⌋.toNat % 2 ^ 32 % 2 == 1) = true
      · obtain ⟨hγ, hx⟩ := hok (by
          simp only [startsSegment, hst, hleave, Bool.true_and]
          exact hodd)
        obtain ⟨hl, hu⟩ := setup_through (g := { g with s0 := g.last_pt, s1 := pt }) hγ hx
        have hgo : (g.process pt file).1 =
            { ({ g with s0 := g.last_pt, s1 := pt } : GreedyPLR).setup.1 with
              state := .ready, last_pt := pt } := by
          simp only [GreedyPLR.process, hst, process__, hout, hodd, if_true]
        rw [hgo]
        exact ⟨through_ready rfl hl hu, rfl, rfl⟩
      · have hgo : (g.process pt file).1 =
            { g with s0 := pt, state := .need1, last_pt := pt } := by
          simp only [GreedyPLR.process, hst, process__, hout, hodd, if_true, Bool.false_eq_true,
            if_false]
        rw [hgo]
        exact ⟨through_need1 rfl rfl, rfl, rfl⟩
    · have hin : isAbove pt g.rho_lower = true ∧ isBelow pt g.rho_upper = true := by
        simpa [leaves] using hleave
      have hline : ∀ p : Point, (getLine g.sint p).b =
          g.sint.y - (getLine g.sint p).a * g.sint.x := by
        intro p
        rw [getLine_sint]
      have hgo : (g.process pt file).1 =
          { g with
            rho_upper := if isBelow (getUpperBound pt g.gamma) g.rho_upper then
              getLine g.sint (getUpperBound pt g.gamma) else g.rho_upper
            rho_lower := if isAbove (getLowerBound pt g.gamma) g.rho_lower then
              getLine g.sint (getLowerBound pt g.gamma) else g.rho_lower
            last_pt := pt } := by
        simp only [GreedyPLR.process, hst, process__, hin.1, hin.2, Bool.and_true, Bool.not_true,
          Bool.false_eq_true, if_false]
        split_ifs <;> simp [hst]
      rw [hgo]
      refine ⟨through_ready hst ?_ ?_, rfl, rfl⟩
      · simp only
        split_ifs
        · exact hline _
        · exact h.lower hst
      · simp only
        split_ifs
        · exact hline _
        · exact h.upper hst

end GreedyPLR

/-! ### Training -/

namespace PLR

open GreedyPLR

variable {awaiting : ℕ → Bool} {file : Bool}

theorem loopDivisors_ne_zero_iff {g : GreedyPLR} (h : g.Through) (keys : List Bytes) (i : ℕ) :
    (∀ d ∈ loopDivisors awaiting file keys i g, d ≠ 0) ↔
      SegmentsOpen awaiting file keys i g := by
  induction keys generalizing i g with
  | nil => simp [loopDivisors, SegmentsOpen]
  | cons key keys ih =>
    rw [loopDivisors, SegmentsOpen]
    cases hx : stoull key with
    | none => simp
    | some x =>
      simp only [List.forall_mem_append]
      rw [h.processDivisors_iff]
      refine and_congr_right fun hok => ?_
      by_cases hstop : (!file && (i + 1) % 10 == 0 && awaiting i) = true
      · simp [hstop]
      · rw [if_neg hstop, ih (h.process hok).1]
        exact ⟨Or.inr, fun hr => hr.resolve_left hstop⟩

/-- **Training divides by zero** exactly if the error is zero, or if a segment starts with two keys
of one value. -/
theorem divisors_ne_zero_iff (error : ℕ) (awaiting : ℕ → Bool) (keys : List Bytes) (file : Bool) :
    (∀ d ∈ divisors error awaiting keys file, d ≠ 0) ↔
      SegmentsOpen awaiting file keys 0 (GreedyPLR.new error) :=
  loopDivisors_ne_zero_iff (through_new error) keys 0

theorem segmentsOpen_of_chain {g : GreedyPLR} (h : g.Through) (hγ : g.gamma ≠ 0)
    {keys : List Bytes} {i : ℕ} (hchain : keys.IsChain fun a b => stoull a ≠ stoull b)
    (hhead : ∀ key ∈ keys.head?, ∀ x, stoull key = some x → g.state ≠ .need2 →
      (x : ℚ) ≠ g.last_pt.x) :
    SegmentsOpen awaiting file keys i g := by
  induction keys generalizing i g with
  | nil => trivial
  | cons key keys ih =>
    rw [SegmentsOpen]
    cases hx : stoull key with
    | none => trivial
    | some x =>
      have hok : g.startsSegment ⟨x, i⟩ file = true → g.gamma ≠ 0 ∧ (x : ℚ) ≠ g.last_pt.x := by
        intro hstart
        refine ⟨hγ, hhead key rfl x hx fun hst => ?_⟩
        rw [startsSegment, hst] at hstart
        cases hstart
      obtain ⟨hthrough, hgamma, hlast⟩ := h.process hok
      refine ⟨hok, Or.inr (ih hthrough (hgamma ▸ hγ) hchain.of_cons ?_)⟩
      intro key' hkey' x' hx' _
      rw [hlast]
      obtain ⟨rest, rfl⟩ : ∃ rest, keys = key' :: rest := by
        cases keys with
        | nil => cases hkey'
        | cons k rest => exact ⟨rest, by rw [Option.some.inj hkey']⟩
      have hne := (List.isChain_cons_cons.1 hchain).1
      rw [hx, hx'] at hne
      intro heq
      exact hne (congrArg some (Nat.cast_injective heq).symm)

/-- **Training never divides by zero** if the error is positive and neighbouring keys differ. -/
theorem divisors_ne_zero {error : ℕ} (he : 1 ≤ error) {keys : List Bytes}
    (hchain : keys.IsChain fun a b => stoull a ≠ stoull b) :
    ∀ d ∈ divisors error awaiting keys file, d ≠ 0 := by
  refine (loopDivisors_ne_zero_iff (through_new error) keys 0).2
    (segmentsOpen_of_chain (through_new error) ?_ hchain fun _ _ _ _ hst => absurd rfl hst)
  exact Nat.cast_ne_zero.2 (by omega)

end PLR

/-! ### Keys that are collected twice -/

namespace TwoVersions

/-- Every entry is a restart point. -/
def opts : Options := ⟨4096, 1⟩

/-- The key `1`, written at the sequence numbers 3 and 5. -/
def entries : List (InternalKey Bytes × Bytes) :=
  [(⟨[49], 5, .value⟩, [97]), (⟨[49], 3, .value⟩, [98])]

/-- The file, opened. -/
def table : Table :=
  ⟨build zeroCrc opts (encodeEntries entries),
    Block.new [0, 9, 2, 49, 1, 3, 0, 0, 0, 0, 0, 0, 0, 38, 0, 0, 0, 0, 1, 0, 0, 0]⟩

/-- A file with one key. -/
def file : FileMetaData Bytes := ⟨7, 100, ⟨[49], 5, .value⟩, ⟨[49], 5, .value⟩⟩

end TwoVersions

open TwoVersions in
/-- A file with two entries of one user key, and a level with a file of one key: training divides by
zero in both cases, and for any keys if the error is zero. -/
theorem divisors_two_versions :
    UniformTable zeroCrc opts 1 13 entries table ∧
    (∃ data g, table.fillData zeroCrc true (LearnedIndexData.new 10 1 false) ⟨0, 0, 0, false⟩ =
        some (data, g) ∧
      0 ∈ PLR.divisors data.error (fun _ => false) data.string_keys (!data.is_level)) ∧
    0 ∈ PLR.divisors 1 (fun _ => false)
      (fillLevel [file] (LearnedIndexData.new 10 1 true)).1.string_keys false ∧
    0 ∈ PLR.divisors 0 (fun _ => false) [[49], [50]] true := by
  refine ⟨⟨⟨by decide, fun cs hcs => Table.fits_of_length_lt (by rw [← hcs]; decide +kernel),
    ⟨true, by decide +kernel⟩⟩, by decide +kernel, by decide +kernel, by decide +kernel,
    by decide +kernel⟩, ?_, by decide +kernel, by decide +kernel⟩
  exact ⟨{ LearnedIndexData.new 10 1 false with
    filled := true, string_keys := [[49], [49]], num_entries_accumulated := [(2, [49])] },
    ⟨2, 43, 13, true⟩, by decide +kernel, by decide +kernel⟩

end Bourbon
