import Mathlib.Algebra.Order.Floor.Ring
import Mathlib.Data.List.Induction
import Mathlib.Data.Rat.Floor
import Mathlib.Tactic.FieldSimp
import Bourbon.Lib.ErrorCone
import Bourbon.Mod.Util

/-!
# Greedy piecewise linear regression

`mod/plr.cpp` fits the points `(key, position)` of a sorted key list with line segments.
`GreedyPLR` absorbs one point after the other; it keeps the cone of lines through an apex `sint`
that pass every absorbed point within `gamma`, and starts a new segment when a point leaves the
cone.  A level model (`file = false`) never starts a segment at an odd position: the point before
it, the smallest key of the same file, is taken along.

Doubles are read as exact rationals, so no line is ever `nan`.  The flag `compaction_awaiting`,
which another thread sets, is a parameter: `awaiting i` is the value the check after point `i`
reads.

* `Inv` is the invariant of the training loop, with `Inv.process` its step;
* `Trained` is what training promises: the segments start at strictly increasing keys, the
  segment of a trained key predicts its position within `gamma`, segments rise, and level
  segments start at even positions (`trained_of_train`).
-/

namespace Bourbon

open List

open Decimal ErrorCone

/-- A key and its position. -/
structure Point where
  x : ℚ
  y : ℚ
  deriving DecidableEq

/-- The line `y = a * x + b`. -/
structure Line where
  a : ℚ
  b : ℚ
  deriving DecidableEq

/-- A segment of the model: it predicts `k * t + b` for the keys `t` from `x` on. -/
structure Segment where
  x : ℕ
  k : ℚ
  b : ℚ
  deriving DecidableEq

/-- `line::LineCheck`: neither coefficient is `nan`, which holds for all rationals. -/
def Line.lineCheck (_ : Line) : Bool := true

/-- `get_slope`. -/
def getSlope (p1 p2 : Point) : ℚ := (p2.y - p1.y) / (p2.x - p1.x)

/-- `get_line`. -/
def getLine (p1 p2 : Point) : Line :=
  let a := getSlope p1 p2
  ⟨a, -a * p1.x + p1.y⟩

/-- `get_intersetction`. -/
def getIntersetction (l1 l2 : Line) : Point :=
  let a := l1.a
  let b := l2.a
  let c := l1.b
  let d := l2.b
  ⟨(d - c) / (a - b), (a * d - b * c) / (a - b)⟩

/-- `is_above`. -/
def isAbove (pt : Point) (l : Line) : Bool := decide (pt.y > l.a * pt.x + l.b)

/-- `is_below`. -/
def isBelow (pt : Point) (l : Line) : Bool := decide (pt.y < l.a * pt.x + l.b)

/-- `get_upper_bound`. -/
def getUpperBound (pt : Point) (gamma : ℚ) : Point := ⟨pt.x, pt.y + gamma⟩

/-- `get_lower_bound`. -/
def getLowerBound (pt : Point) (gamma : ℚ) : Point := ⟨pt.x, pt.y - gamma⟩

/-- The states `"need2"`, `"need1"`, `"ready"` and `"finished"` of the regression. -/
inductive PlrState where
  | need2
  | need1
  | ready
  | finished
  deriving DecidableEq

/-- `GreedyPLR`, the greedy regression. -/
structure GreedyPLR where
  state : PlrState
  gamma : ℚ
  last_pt : Point
  s0 : Point
  s1 : Point
  rho_lower : Line
  rho_upper : Line
  sint : Point

namespace GreedyPLR

/-- The constructor; the members it leaves uninitialised are set before they are read. -/
def new (gamma : ℚ) : GreedyPLR :=
  ⟨.need2, gamma, ⟨0, 0⟩, ⟨0, 0⟩, ⟨0, 0⟩, ⟨0, 0⟩, ⟨0, 0⟩, ⟨0, 0⟩⟩

/-- `GreedyPLR::setup`. -/
def setup (g : GreedyPLR) : GreedyPLR × Bool :=
  let g := { g with
    rho_lower := getLine (getUpperBound g.s0 g.gamma) (getLowerBound g.s1 g.gamma) }
  if !g.rho_lower.lineCheck then (g, false)
  else
    let g := { g with
      rho_upper := getLine (getLowerBound g.s0 g.gamma) (getUpperBound g.s1 g.gamma) }
    if !g.rho_upper.lineCheck then (g, false)
    else ({ g with sint := getIntersetction g.rho_upper g.rho_lower }, true)

/-- `GreedyPLR::current_segment`. -/
def currentSegment (g : GreedyPLR) : Segment :=
  let segment_start := ⌊g.s0.x⌋.toNat
  let avg_slope := (g.rho_lower.a + g.rho_upper.a) / 2
  let intercept := -avg_slope * g.sint.x + g.sint.y
  ⟨segment_start, avg_slope, intercept⟩

set_option linter.style.nameCheck false in
/-- `GreedyPLR::process__`, the work on a point in state `ready`. -/
def process__ (g : GreedyPLR) (pt : Point) (file : Bool) : GreedyPLR × Segment :=
  if !(isAbove pt g.rho_lower && isBelow pt g.rho_upper) then
    -- new point out of error bounds
    let prev_segment := g.currentSegment
    if !file && ⌊pt.y⌋.toNat % 2 ^ 32 % 2 == 1 then
      -- current point is the largest point of a file
      let g := { g with s0 := g.last_pt, s1 := pt }
      ({ g.setup.1 with state := .ready }, prev_segment)
    else ({ g with s0 := pt, state := .need1 }, prev_segment)
  else
    let s_upper := getUpperBound pt g.gamma
    let s_lower := getLowerBound pt g.gamma
    let g := if isBelow s_upper g.rho_upper then { g with rho_upper := getLine g.sint s_upper }
      else g
    let g := if isAbove s_lower g.rho_lower then { g with rho_lower := getLine g.sint s_lower }
      else g
    (g, ⟨0, 0, 0⟩)

/-- `GreedyPLR::process`. -/
def process (g : GreedyPLR) (pt : Point) (file : Bool) : GreedyPLR × Segment :=
  let (g, s) : GreedyPLR × Segment := match g.state with
    | .need2 => ({ g with s0 := pt, state := .need1 }, ⟨0, 0, 0⟩)
    | .need1 =>
      let (g, ok) := { g with s1 := pt }.setup
      (if ok then { g with state := .ready } else g, ⟨0, 0, 0⟩)
    | .ready => g.process__ pt file
    | .finished => (g, ⟨0, 0, 0⟩)
  ({ g with last_pt := pt }, s)

/-- `GreedyPLR::finish`. -/
def finish (g : GreedyPLR) : Segment :=
  match g.state with
  | .need2 => ⟨0, 0, 0⟩
  | .need1 => ⟨⌊g.s0.x⌋.toNat, 0, g.s0.y⟩
  | .ready => g.currentSegment
  | .finished => ⟨0, 0, 0⟩

end GreedyPLR

namespace PLR

/-- `segments.push_back(seg)` unless all three fields of `seg` are zero, the mark of "no
segment". -/
def push (segments : List Segment) (seg : Segment) : List Segment :=
  if seg.x ≠ 0 ∨ seg.k ≠ 0 ∨ seg.b ≠ 0 then segments ++ [seg] else segments

/-- How the training loop can end early. -/
inductive Stop where
  /-- `std::stoull` threw an exception. -/
  | exception
  /-- A compaction is waiting; the segments are dropped. -/
  | aborted
  deriving DecidableEq

/-- The loop of `PLR::train` from position `i` on. -/
def trainLoop (awaiting : ℕ → Bool) (file : Bool) :
    List Bytes → ℕ → GreedyPLR → List Segment → Except Stop (GreedyPLR × List Segment)
  | [], _, plr, segments => .ok (plr, segments)
  | key :: keys, i, plr, segments =>
    match stoull key with
    | none => .error .exception
    | some x =>
      let (plr, seg) := plr.process ⟨x, i⟩ file
      let segments := push segments seg
      if !file && (i + 1) % 10 == 0 && awaiting i then .error .aborted
      else trainLoop awaiting file keys (i + 1) plr segments

/-- `PLR::train`; `none` stands for an exception. -/
def train (gamma : ℚ) (awaiting : ℕ → Bool) (keys : List Bytes) (file : Bool) :
    Option (List Segment) :=
  match trainLoop awaiting file keys 0 (GreedyPLR.new gamma) [] with
  | .error .exception => none
  | .error .aborted => some []
  | .ok (plr, segments) => some (push segments plr.finish)

end PLR

/-! ### Covering segments -/

/-- The prediction of a segment for the key `t`. -/
def Segment.eval (s : Segment) (t : ℕ) : ℚ := t * s.k + s.b

/-- `s` is the last segment of `segs` that starts at or before `t`. -/
def Selects (segs : List Segment) (t : ℕ) (s : Segment) : Prop :=
  ∃ l r, segs = l ++ s :: r ∧ s.x ≤ t ∧ ∀ s' ∈ r, t < s'.x

variable {segs : List Segment} {t : ℕ} {s : Segment}

theorem Selects.mem (h : Selects segs t s) :
    s ∈ segs := by
  obtain ⟨l, r, rfl, -, -⟩ := h
  simp

theorem Selects.append {s' : Segment} (h : Selects segs t s)
    (hs : t < s'.x) : Selects (segs ++ [s']) t s := by
  obtain ⟨l, r, rfl, hx, hr⟩ := h
  refine ⟨l, r ++ [s'], by simp, hx, fun u hu => ?_⟩
  rcases mem_append.1 hu with hu | hu
  · exact hr u hu
  · rw [mem_singleton.1 hu]; exact hs

theorem selects_last (hs : s.x ≤ t) :
    Selects (segs ++ [s]) t s := ⟨segs, [], rfl, hs, by simp⟩

theorem exists_selects (h : ∃ s ∈ segs, s.x ≤ t) :
    ∃ s, Selects segs t s := by
  induction segs using List.reverseRecOn with
  | nil => obtain ⟨s, hs, -⟩ := h; cases hs
  | append_singleton segs s ih =>
    by_cases hs : s.x ≤ t
    · exact ⟨s, selects_last hs⟩
    · obtain ⟨u, hu, hut⟩ := h
      rcases mem_append.1 hu with hu | hu
      · obtain ⟨w, hw⟩ := ih ⟨u, hu, hut⟩
        exact ⟨w, hw.append (not_le.1 hs)⟩
      · rw [mem_singleton.1 hu] at hut; exact absurd hut hs

/-- `segs` are the segments of the positions below `c`, where `v j` is the key at position `j`. -/
structure Trained (v : ℕ → ℕ) (γ : ℚ) (file : Bool) (c : ℕ) (segs : List Segment) : Prop where
  sorted : segs.Pairwise fun s t => s.x < t.x
  /-- Every segment starts at a key, in a level model at the smallest key of a file. -/
  starts : ∀ s ∈ segs, ∃ j < c, s.x = v j ∧ (file = false → j % 2 = 0)
  /-- The segment a key selects predicts its position within `γ`. -/
  covers : ∀ j < c, ∃ s, Selects segs (v j) s ∧ |s.eval (v j) - j| ≤ γ
  /-- Segments do not fall and start above `-γ`. -/
  rises : ∀ s ∈ segs, 0 ≤ s.k ∧ -γ ≤ s.eval s.x

section Covering

variable {v : ℕ → ℕ} {γ : ℚ} {file : Bool} {c d : ℕ} {segs : List Segment} {s : Segment}

theorem trained_nil : Trained v γ file 0 [] :=
  ⟨List.Pairwise.nil, by simp, by simp, by simp⟩

/-- Append a segment that starts at position `c` and covers the positions from `c` below `d`. -/
theorem Trained.append (h : Trained v γ file c segs) (hcd : c < d)
    (hv : ∀ a b, a < b → b < d → v a < v b) (hx : s.x = v c) (heven : file = false → c % 2 = 0)
    (hcov : ∀ j, c ≤ j → j < d → |s.eval (v j) - j| ≤ γ) (hk : 0 ≤ s.k) :
    Trained v γ file d (segs ++ [s]) := by
  have hbefore : ∀ u ∈ segs, u.x < s.x := by
    intro u hu
    obtain ⟨j, hj, hux, -⟩ := h.starts u hu
    rw [hux, hx]; exact hv j c hj hcd
  refine ⟨?_, ?_, ?_, ?_⟩
  · rw [pairwise_append]
    refine ⟨h.sorted, pairwise_singleton _ _, fun u hu w hw => ?_⟩
    rw [mem_singleton.1 hw]; exact hbefore u hu
  · intro u hu
    rcases mem_append.1 hu with hu | hu
    · obtain ⟨j, hj, hux, he⟩ := h.starts u hu
      exact ⟨j, hj.trans hcd, hux, he⟩
    · rw [mem_singleton.1 hu]; exact ⟨c, hcd, hx, heven⟩
  · intro j hj
    rcases lt_or_ge j c with hjc | hjc
    · obtain ⟨u, hu, hfit⟩ := h.covers j hjc
      exact ⟨u, hu.append (by rw [hx]; exact hv j c hjc hcd), hfit⟩
    · refine ⟨s, selects_last ?_, hcov j hjc hj⟩
      rw [hx]
      rcases hjc.eq_or_lt with rfl | hlt
      · exact le_rfl
      · exact (hv c j hlt hj).le
  · intro u hu
    rcases mem_append.1 hu with hu | hu
    · exact h.rises u hu
    · rw [mem_singleton.1 hu]
      refine ⟨hk, ?_⟩
      have := (abs_le.1 (hcov c le_rfl hcd)).1
      rw [hx]
      have : (0 : ℚ) ≤ c := Nat.cast_nonneg c
      linarith

end Covering

/-! ### The cone of the open segment -/

namespace GreedyPLR

/-- The lines the open segment can still choose from. -/
def cone (g : GreedyPLR) : Cone ℚ := ⟨g.sint.x, g.sint.y, g.rho_lower.a, g.rho_upper.a⟩

/-- The point of position `i`. -/
def point (v : ℕ → ℕ) (i : ℕ) : Point := ⟨v i, i⟩

/-- In state `ready` with the open segment starting at position `c`, the positions from `c`
below `i` are absorbed: both bounds pass through the apex, half-way between the first two points,
and every line between them passes the absorbed points within `gamma`. -/
structure Open (g : GreedyPLR) (v : ℕ → ℕ) (c i : ℕ) : Prop where
  apex : g.sint = ⟨((v c : ℚ) + v (c + 1)) / 2, c + 1 / 2⟩
  lower : g.rho_lower.b = g.sint.y - g.rho_lower.a * g.sint.x
  upper : g.rho_upper.b = g.sint.y - g.rho_upper.a * g.sint.x
  le : g.cone.lo ≤ g.cone.hi
  fits : ∀ j, c ≤ j → j < i → g.cone.Fits g.gamma (v j) j
  touches : g.cone.Touches g.gamma

variable {g : GreedyPLR} {v : ℕ → ℕ} {c i : ℕ}

theorem Open.congr {g' : GreedyPLR} (h : g.Open v c i) (hs : g'.sint = g.sint)
    (hl : g'.rho_lower = g.rho_lower) (hu : g'.rho_upper = g.rho_upper)
    (hg : g'.gamma = g.gamma) : g'.Open v c i := by
  have hcone : g'.cone = g.cone := by simp only [cone, hs, hl, hu]
  refine ⟨by rw [hs, h.apex], by rw [hs, hl, h.lower], by rw [hs, hu, h.upper], ?_, ?_, ?_⟩
  · rw [hcone]; exact h.le
  · rw [hcone, hg]; exact h.fits
  · rw [hcone, hg]; exact h.touches

theorem currentSegment_eval (g : GreedyPLR) (t : ℕ) :
    g.currentSegment.eval t = g.cone.line g.cone.mid t := by
  simp only [Segment.eval, currentSegment, Cone.line, Cone.mid, cone]
  ring

theorem Open.slope_pos (h : g.Open v c i) : 0 < g.currentSegment.k := Cone.slope_pos h.touches

variable {j : ℕ}

theorem Open.currentSegment_fits (h : g.Open v c i) (hc : c ≤ j) (hi : j < i) :
    |g.currentSegment.eval (v j) - j| ≤ g.gamma := by
  rw [currentSegment_eval]
  exact (h.fits j hc hi).mid h.le

theorem Open.isAbove_lower (h : g.Open v c i) (pt : Point) :
    isAbove pt g.rho_lower = true ↔ g.cone.line g.cone.lo pt.x < pt.y := by
  have : g.rho_lower.a * pt.x + g.rho_lower.b = g.cone.line g.cone.lo pt.x := by
    rw [h.lower]; simp only [Cone.line, cone]; ring
  rw [isAbove, decide_eq_true_eq, this, gt_iff_lt]

theorem Open.isBelow_upper (h : g.Open v c i) (pt : Point) :
    isBelow pt g.rho_upper = true ↔ pt.y < g.cone.line g.cone.hi pt.x := by
  have : g.rho_upper.a * pt.x + g.rho_upper.b = g.cone.line g.cone.hi pt.x := by
    rw [h.upper]; simp only [Cone.line, cone]; ring
  rw [isBelow, decide_eq_true_eq, this]

theorem getLine_sint (g : GreedyPLR) (p : Point) :
    getLine g.sint p = ⟨(p.y - g.cone.y) / (p.x - g.cone.x),
      g.sint.y - (p.y - g.cone.y) / (p.x - g.cone.x) * g.sint.x⟩ := by
  simp only [getLine, getSlope, cone, Line.mk.injEq, true_and]
  ring

theorem setup_cone (h : g.s0.x < g.s1.x) (hγ : 0 < g.gamma) :
    g.setup.1.cone = Cone.start g.gamma g.s0.x g.s0.y g.s1.x g.s1.y := by
  have hd : g.s1.x - g.s0.x ≠ 0 := (sub_pos.2 h).ne'
  have hlo : g.s1.y - g.gamma - (g.s0.y + g.gamma) = g.s1.y - g.s0.y - 2 * g.gamma := by ring
  have hhi : g.s1.y + g.gamma - (g.s0.y - g.gamma) = g.s1.y - g.s0.y + 2 * g.gamma := by ring
  have hne : (g.s1.y - g.s0.y + 2 * g.gamma) / (g.s1.x - g.s0.x) -
      (g.s1.y - g.s0.y - 2 * g.gamma) / (g.s1.x - g.s0.x) = 4 * g.gamma / (g.s1.x - g.s0.x) := by
    ring
  simp only [cone, setup, Line.lineCheck, Bool.not_true, Bool.false_eq_true, if_false, getLine,
    getSlope, getUpperBound, getLowerBound, getIntersetction, Cone.start, hlo, hhi, hne,
    Cone.mk.injEq, and_true]
  constructor <;> field_simp <;> ring

/-- **Two points open a segment.** -/
theorem setup_open (h0 : g.s0 = point v c) (h1 : g.s1 = point v (c + 1)) (hv : v c < v (c + 1))
    (hγ : 0 < g.gamma) : g.setup.1.Open v c (c + 2) := by
  have hx : (v c : ℚ) < v (c + 1) := by exact_mod_cast hv
  have hcone : g.setup.1.cone = Cone.start g.gamma (v c) c (v (c + 1)) (c + 1) := by
    rw [setup_cone (by rw [h0, h1]; exact hx) hγ, h0, h1]
    simp only [point, Nat.cast_add, Nat.cast_one]
  have hgamma : g.setup.1.gamma = g.gamma := rfl
  have hsx : g.setup.1.sint.x = (v c + v (c + 1)) / 2 := congrArg Cone.x hcone
  have hsy : g.setup.1.sint.y = c + 1 / 2 := by
    rw [show g.setup.1.sint.y = _ from congrArg Cone.y hcone]; simp only [Cone.start]; ring
  have hlo : g.setup.1.rho_lower.a = _ := congrArg Cone.lo hcone
  have hhi : g.setup.1.rho_upper.a = _ := congrArg Cone.hi hcone
  have hd : (v (c + 1) : ℚ) - v c ≠ 0 := (sub_pos.2 hx).ne'
  refine ⟨?_, ?_, ?_, ?_, fun j hcj hj => ?_, ?_⟩
  · rw [← hsx, ← hsy]
  · have hb : g.setup.1.rho_lower.b = -g.setup.1.rho_lower.a * v c + (c + g.gamma) := by
      simp only [setup, Line.lineCheck, Bool.not_true, Bool.false_eq_true, if_false, getLine,
        getUpperBound, h0, point]
    rw [hb, hsx, hsy, hlo]
    simp only [Cone.start]
    field_simp
    ring
  · have hb : g.setup.1.rho_upper.b = -g.setup.1.rho_upper.a * v c + (c - g.gamma) := by
      simp only [setup, Line.lineCheck, Bool.not_true, Bool.false_eq_true, if_false, getLine,
        getLowerBound, h0, point]
    rw [hb, hsx, hsy, hhi]
    simp only [Cone.start]
    field_simp
    ring
  · rw [hcone]; exact Cone.start_le hx hγ.le
  · rw [hcone, hgamma]
    obtain rfl | rfl : j = c ∨ j = c + 1 := by omega
    · exact Cone.start_fits_left hx hγ.le
    · rw [Nat.cast_add, Nat.cast_one]; exact Cone.start_fits_right hx hγ.le
  · rw [hcone, hgamma]; exact Cone.start_touches hx (by linarith)

theorem Open.apex_lt (h : g.Open v c i) (hj : c < j)
    (hv : ∀ a b, a < b → b ≤ j → v a < v b) : g.cone.x < v j ∧ g.cone.y < j := by
  have h1 : (v c : ℚ) < v (c + 1) := by exact_mod_cast hv c (c + 1) (by omega) hj
  have h2 : (v (c + 1) : ℚ) ≤ v j := by
    rcases (Nat.succ_le_of_lt hj).eq_or_lt with rfl | hlt
    · exact le_rfl
    · exact_mod_cast (hv (c + 1) j hlt le_rfl).le
  have h3 : (c : ℚ) + 1 ≤ j := by exact_mod_cast hj
  simp only [cone, h.apex]
  constructor <;> linarith

variable {file : Bool}

/-- **Absorbing a point narrows the cone.** -/
theorem Open.absorb (h : g.Open v c i) (hci : c < i) (hγ : 0 ≤ g.gamma)
    (hv : ∀ a b, a < b → b ≤ i → v a < v b)
    (hin : isAbove (point v i) g.rho_lower = true ∧ isBelow (point v i) g.rho_upper = true) :
    (g.process__ (point v i) file).1.Open v c (i + 1) := by
  have hlo := (h.isAbove_lower _).1 hin.1
  have hhi := (h.isBelow_upper _).1 hin.2
  obtain ⟨hx, hy⟩ := h.apex_lt hci hv
  have hgo : (g.process__ (point v i) file).1 =
      { g with
        rho_upper := if isBelow (getUpperBound (point v i) g.gamma) g.rho_upper then
          getLine g.sint (getUpperBound (point v i) g.gamma) else g.rho_upper
        rho_lower := if isAbove (getLowerBound (point v i) g.gamma) g.rho_lower then
          getLine g.sint (getLowerBound (point v i) g.gamma) else g.rho_lower } := by
    simp only [process__, hin.1, hin.2, Bool.and_true, Bool.not_true, Bool.false_eq_true, if_false]
    split_ifs <;> rfl
  have hcone : (g.process__ (point v i) file).1.cone = g.cone.narrow g.gamma (v i) i := by
    have hu := h.isBelow_upper (getUpperBound (point v i) g.gamma)
    have hl := h.isAbove_lower (getLowerBound (point v i) g.gamma)
    rw [hgo, Cone.narrow]
    simp only [getUpperBound, getLowerBound, point] at hu hl ⊢
    simp only [← hu, ← hl]
    simp only [cone, Cone.mk.injEq, true_and, getLine_sint]
    constructor <;> split_ifs <;> rfl
  have hg : (g.process__ (point v i) file).1.gamma = g.gamma := by rw [hgo]
  have hs : (g.process__ (point v i) file).1.sint = g.sint := by rw [hgo]
  refine ⟨by rw [hs, h.apex], ?_, ?_, ?_, fun j hcj hj => ?_, ?_⟩
  · rw [hgo]
    simp only
    split_ifs
    · rw [getLine_sint]
    · exact h.lower
  · rw [hgo]
    simp only
    split_ifs
    · rw [getLine_sint]
    · exact h.upper
  · rw [hcone]; exact Cone.narrow_le hx hγ hlo hhi
  · rw [hcone, hg]
    rcases (Nat.le_of_lt_succ hj).eq_or_lt with rfl | hlt
    · exact Cone.narrow_fits hx hγ hlo hhi
    · exact (h.fits j hcj hlt).narrow hx
  · rw [hcone, hg]; exact h.touches.narrow hx hy

theorem process_absorbed {pt : Point} (file : Bool)
    (hin : isAbove pt g.rho_lower = true ∧ isBelow pt g.rho_upper = true) :
    (g.process__ pt file).1.gamma = g.gamma ∧ (g.process__ pt file).1.state = g.state ∧
      (g.process__ pt file).1.s0 = g.s0 ∧ (g.process__ pt file).2 = ⟨0, 0, 0⟩ := by
  simp only [process__, hin.1, hin.2, Bool.and_true, Bool.not_true, Bool.false_eq_true, if_false]
  refine ⟨?_, ?_, ?_, trivial⟩ <;> split_ifs <;> rfl

/-- The invariant of the training loop after the positions below `i`: the pushed segments serve
the positions before the open segment, which starts at position `c`. -/
def Inv (v : ℕ → ℕ) (γ : ℚ) (file : Bool) (i : ℕ) (g : GreedyPLR) (segs : List Segment) : Prop :=
  g.gamma = γ ∧ (0 < i → g.last_pt = point v (i - 1)) ∧
  match g.state with
  | .need2 => i = 0 ∧ segs = []
  | .need1 => ∃ c, i = c + 1 ∧ g.s0 = point v c ∧ (file = false → c % 2 = 0) ∧
      Trained v γ file c segs
  | .ready => ∃ c, c + 2 ≤ i ∧ g.s0 = point v c ∧ (file = false → c % 2 = 0) ∧
      Trained v γ file c segs ∧ g.Open v c i
  | .finished => False

theorem toNat_floor_natCast (n : ℕ) : ⌊(n : ℚ)⌋.toNat = n := by
  rw [Int.floor_natCast, Int.toNat_natCast]

theorem push_zero (segs : List Segment) : PLR.push segs ⟨0, 0, 0⟩ = segs := by
  simp [PLR.push]

variable {segs : List Segment}

theorem Open.close (h : g.Open v c i) {d : ℕ}
    (hs0 : g.s0 = point v c) (heven : file = false → c % 2 = 0)
    (ht : Trained v g.gamma file c segs) (hcd : c < d) (hdi : d ≤ i)
    (hv : ∀ a b, a < b → b < i → v a < v b) :
    Trained v g.gamma file d (PLR.push segs g.currentSegment) := by
  have hk := h.slope_pos
  have hx : g.currentSegment.x = v c := by
    simp only [currentSegment, hs0, point, toNat_floor_natCast]
  rw [PLR.push, if_pos (Or.inr (Or.inl hk.ne'))]
  refine ht.append hcd (fun a b hab hb => hv a b hab (hb.trans_le hdi)) hx heven
    (fun j hcj hj => ?_) hk.le
  exact h.currentSegment_fits hcj (hj.trans_le hdi)

/-- **One step of training keeps the invariant.** -/
theorem Inv.process {γ : ℚ} (h : Inv v γ file i g segs)
    (hγ : 0 < γ) (hv : ∀ a b, a < b → b ≤ i → v a < v b) :
    Inv v γ file (i + 1) (g.process (point v i) file).1
      (PLR.push segs (g.process (point v i) file).2) := by
  obtain ⟨rfl, hlast, h⟩ := h
  have hi1 : point v i = point v (i + 1 - 1) := by rw [Nat.add_sub_cancel]
  cases hst : g.state with
  | need2 =>
    simp only [hst] at h
    obtain ⟨rfl, rfl⟩ := h
    simp only [GreedyPLR.process, hst, push_zero]
    exact ⟨rfl, fun _ => rfl, 0, rfl, rfl, fun _ => rfl, trained_nil⟩
  | need1 =>
    simp only [hst] at h
    obtain ⟨c, rfl, hs0, heven, ht⟩ := h
    have hopen : ({ g with s1 := point v (c + 1) } : GreedyPLR).setup.1.Open v c (c + 2) :=
      setup_open hs0 rfl (hv c (c + 1) (by omega) le_rfl) hγ
    simp only [GreedyPLR.process, hst, push_zero]
    exact ⟨rfl, fun _ => rfl, c, le_rfl, hs0, heven, ht, hopen.congr rfl rfl rfl rfl⟩
  | ready =>
    simp only [hst] at h
    obtain ⟨c, hci, hs0, heven, ht, hopen⟩ := h
    have hstrict : ∀ a b, a < b → b < i → v a < v b := fun a b hab hb => hv a b hab hb.le
    by_cases hin : isAbove (point v i) g.rho_lower = true ∧ isBelow (point v i) g.rho_upper = true
    · obtain ⟨hgamma, hstate, hs0', hseg⟩ := process_absorbed file hin
      simp only [GreedyPLR.process, hst, hseg, push_zero]
      refine ⟨hgamma, fun _ => rfl, ?_⟩
      simp only [hstate, hst]
      refine ⟨c, by omega, hs0'.trans hs0, heven, ht, ?_⟩
      exact (hopen.absorb (by omega) hγ.le hv hin).congr rfl rfl rfl rfl
    · have hin' :
          (!(isAbove (point v i) g.rho_lower && isBelow (point v i) g.rho_upper)) = true := by
        rw [Bool.not_eq_true', Bool.and_eq_false_iff]
        simpa only [not_and_or, Bool.not_eq_true] using hin
      have hparity : (!file && ⌊(point v i).y⌋.toNat % 2 ^ 32 % 2 == 1) = true ↔
          file = false ∧ i % 2 = 1 := by
        simp only [point, toNat_floor_natCast, Nat.mod_mod_of_dvd i (show 2 ∣ 2 ^ 32 by decide),
          Bool.and_eq_true, Bool.not_eq_true', beq_iff_eq]
      by_cases hodd : (!file && ⌊(point v i).y⌋.toNat % 2 ^ 32 % 2 == 1) = true
      · -- the new segment starts one position before the point, at the smallest key of the file
        obtain ⟨m, rfl⟩ : ∃ m, i = m + 1 := ⟨i - 1, by omega⟩
        have hm : g.last_pt = point v m := hlast (by omega)
        have hopen' : ({ g with s0 := g.last_pt, s1 := point v (m + 1) } : GreedyPLR).setup.1.Open
            v m (m + 2) := setup_open hm rfl (hv m (m + 1) (by omega) le_rfl) hγ
        simp only [GreedyPLR.process, hst, process__, hin', hodd, if_true]
        refine ⟨rfl, fun _ => rfl, m, le_rfl, hm, ?_, ?_, hopen'.congr rfl rfl rfl rfl⟩
        · have := (hparity.1 hodd).2
          intro; omega
        · exact hopen.close hs0 heven ht (by omega) (by omega) hstrict
      · simp only [GreedyPLR.process, hst, process__, hin', hodd, if_true, Bool.false_eq_true,
          if_false]
        refine ⟨rfl, fun _ => rfl, i, rfl, rfl, ?_, ?_⟩
        · intro hfile
          have : ¬ i % 2 = 1 := fun h => hodd (hparity.2 ⟨hfile, h⟩)
          omega
        · exact hopen.close hs0 heven ht (by omega) le_rfl hstrict
  | finished => simp only [hst] at h

end GreedyPLR

namespace PLR

open GreedyPLR

variable {v : ℕ → ℕ} {γ : ℚ} {file : Bool} {awaiting : ℕ → Bool}

variable {keys : List Bytes} {g : GreedyPLR} {segs : List Segment}

/-- **The training loop keeps the invariant.** -/
theorem trainLoop_inv (hγ : 0 < γ) {i : ℕ} {g' : GreedyPLR}
    {segs' : List Segment} (h : Inv v γ file i g segs)
    (hkeys : ∀ k (hk : k < keys.length), stoull keys[k] = some (v (i + k)))
    (hv : ∀ a b, a < b → b < i + keys.length → v a < v b)
    (hrun : trainLoop awaiting file keys i g segs = .ok (g', segs')) :
    Inv v γ file (i + keys.length) g' segs' := by
  induction keys generalizing i g segs with
  | nil =>
    simp only [trainLoop, Except.ok.injEq, Prod.mk.injEq] at hrun
    obtain ⟨rfl, rfl⟩ := hrun
    exact h
  | cons key keys ih =>
    have hkey : stoull key = some (v i) := hkeys 0 (by simp)
    simp only [trainLoop, hkey] at hrun
    split_ifs at hrun with hstop
    have hlen : i + 1 + keys.length = i + (key :: keys).length := by
      rw [length_cons]; omega
    rw [← hlen] at hv ⊢
    refine ih (h.process hγ fun a b hab hb => hv a b hab (by omega)) (fun k hk => ?_) hv hrun
    have := hkeys (k + 1) (by simpa using hk)
    rwa [getElem_cons_succ, ← Nat.add_assoc, Nat.add_right_comm] at this

theorem train_isSome (gamma : ℚ) (awaiting : ℕ → Bool) (file : Bool)
    (hkeys : ∀ k ∈ keys, (stoull k).isSome = true) :
    (train gamma awaiting keys file).isSome = true := by
  have hloop : ∀ i g segs, trainLoop awaiting file keys i g segs ≠ .error .exception := by
    induction keys with
    | nil => exact fun i g segs h => by cases h
    | cons key keys ih =>
      intro i g segs
      obtain ⟨x, hx⟩ := Option.isSome_iff_exists.1 (hkeys key mem_cons_self)
      simp only [trainLoop, hx]
      split_ifs
      · exact fun h => by cases h
      · exact ih (fun k hk => hkeys k (mem_cons_of_mem key hk)) _ _ _
  rw [train]
  cases hrun : trainLoop awaiting file keys 0 (GreedyPLR.new gamma) [] with
  | error e =>
    cases e with
    | exception => exact absurd hrun (hloop _ _ _)
    | aborted => rfl
  | ok r => rfl

theorem readable_of_train {gamma : ℚ} {awaiting : ℕ → Bool} {file : Bool}
    (h : train gamma awaiting keys file = some segs) (hne : segs ≠ []) :
    ∀ k ∈ keys, (stoull k).isSome = true := by
  have hloop : ∀ i g out r, trainLoop awaiting file keys i g out = .ok r →
      ∀ k ∈ keys, (stoull k).isSome = true := by
    clear h
    induction keys with
    | nil => exact fun i g out r _ k hk => absurd hk not_mem_nil
    | cons key keys ih =>
      intro i g out r h
      cases hx : stoull key with
      | none =>
        rw [trainLoop, hx] at h
        cases h
      | some x =>
        simp only [trainLoop, hx] at h
        split_ifs at h
        intro k hk
        rcases mem_cons.1 hk with rfl | hk
        · rw [hx]
          rfl
        · exact ih _ _ _ r h k hk
  rw [train] at h
  split at h
  · cases h
  · exact absurd (Option.some.inj h).symm hne
  · rename_i plr out hrun
    exact hloop _ _ _ _ hrun

theorem inv_new : Inv v γ file 0 (GreedyPLR.new γ) [] :=
  ⟨rfl, fun h => absurd h (lt_irrefl 0), rfl, rfl⟩

/-- Closing the open segment serves all positions, unless the segment is the all-zero mark: a
single key of value zero. -/
theorem trained_finish {n : ℕ}
    (h : Inv v γ file n g segs) (hγ : 0 < γ) (hv : ∀ a b, a < b → b < n → v a < v b)
    (hne : push segs g.finish ≠ []) : Trained v γ file n (push segs g.finish) := by
  obtain ⟨rfl, -, h⟩ := h
  cases hst : g.state with
  | need2 =>
    simp only [hst] at h
    simp [finish, hst, push_zero, h.2] at hne
  | need1 =>
    simp only [hst] at h
    obtain ⟨c, rfl, hs0, heven, ht⟩ := h
    have hfin : g.finish = ⟨v c, 0, c⟩ := by
      simp only [finish, hst, hs0, point, toNat_floor_natCast]
    rw [hfin] at hne ⊢
    have hpush : push segs ⟨v c, 0, c⟩ = segs ++ [⟨v c, 0, c⟩] := by
      rw [push]
      split_ifs with h0
      · rfl
      · -- the mark is only skipped at position zero, where nothing has been pushed
        exfalso
        have hc : c = 0 := by
          by_contra hc
          exact h0 (Or.inr (Or.inr (Nat.cast_ne_zero.2 hc)))
        subst hc
        cases segs with
        | nil => rw [push, if_neg h0] at hne; exact hne rfl
        | cons s segs =>
          obtain ⟨j, hj, -⟩ := ht.starts s (by simp)
          exact absurd hj (Nat.not_lt_zero j)
    rw [hpush]
    refine ht.append (Nat.lt_succ_self c) hv rfl heven (fun j hcj hj => ?_) le_rfl
    obtain rfl : j = c := by omega
    simp only [Segment.eval, mul_zero, zero_add, sub_self, abs_zero]
    exact hγ.le
  | ready =>
    simp only [hst] at h
    obtain ⟨c, hci, hs0, heven, ht, hopen⟩ := h
    have hfin : g.finish = g.currentSegment := by simp only [finish, hst]
    rw [hfin]
    exact hopen.close hs0 heven ht (by omega) le_rfl hv
  | finished => simp only [hst] at h

/-- **Training serves every key.** -/
theorem trained_of_train (hγ : 0 < γ)
    (hkeys : ∀ k (hk : k < keys.length), stoull keys[k] = some (v k))
    (hv : ∀ a b, a < b → b < keys.length → v a < v b)
    (h : train γ awaiting keys file = some segs) (hne : segs ≠ []) :
    Trained v γ file keys.length segs := by
  cases hloop : trainLoop awaiting file keys 0 (GreedyPLR.new γ) [] with
  | error e => cases e <;> simp_all [train]
  | ok r =>
    obtain ⟨g, segs'⟩ := r
    simp only [train, hloop, Option.some.injEq] at h
    subst h
    have hinv := trainLoop_inv hγ inv_new (fun k hk => by rw [hkeys k hk, Nat.zero_add])
      (by rwa [Nat.zero_add]) hloop
    rw [Nat.zero_add] at hinv
    exact trained_finish hinv hγ hv hne

end PLR

end Bourbon
